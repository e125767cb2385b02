import HfDfs.Library.Replacement
import HfDfs.Properties.FirstOccurrence

/-!
# What `str_replace` leaves

The part in front of `strSrc` is done and the part from there on is what is
left of the string. The rest behind an occurrence is saved before it moves:
its length is an `int`, and so is its size with the NUL.
-/

namespace HfDfs

set_option autoImplicit false

open Execution Execution.Code Searching

namespace Memory

variable {malloc : Nat → Bool} {find rep front l tail : CString} {calls : Nat}
  {b : List UInt8} {n : Nat} {r : Replacing ⊕ List UInt8}

theorem returns_startsWith {same : Bool} (hfront : 0 ∉ front) (hl : 0 ∉ l) :
    (startsWith (front ++ l ++ 0 :: tail) front.length find).Returns same ↔
      same = decide (find <+: l) := by
  have hs : 0 ∉ front ++ l := by simp [hfront, hl]
  have hle : front.length ≤ (front ++ l).length := by simp
  rw [startsWith, returns_bind]
  simp only [returns_string_drop hs hle, List.drop_left, exists_eq_left, returns_pure]

/-! ## One turn -/

theorem returns_replaceTurn_nil :
    (replaceTurn malloc find rep ⟨front ++ 0 :: tail, front.length, calls⟩).Returns r ↔
      r = .inr (front ++ 0 :: tail) := by
  have hread : (front ++ 0 :: tail)[front.length]? = some 0 := by simp
  rw [replaceTurn, returns_bind]
  simp only [returns_load, hread, Option.some.injEq, exists_eq_left', if_true, returns_pure]

theorem returns_replaceTurn_stays {x : UInt8} (hfront : 0 ∉ front) (hl : 0 ∉ x :: l)
    (hstays : ¬ (find ≠ [] ∧ find <+: x :: l)) :
    (replaceTurn malloc find rep ⟨front ++ x :: l ++ 0 :: tail, front.length, calls⟩).Returns r ↔
      r = .inl ⟨front ++ x :: l ++ 0 :: tail, front.length + 1, calls⟩ := by
  have hread : (front ++ x :: l ++ 0 :: tail)[front.length]? = some x := by simp
  have hx : x ≠ 0 := fun h => hl (h ▸ List.mem_cons_self)
  obtain ⟨first, hfirst, hne⟩ : ∃ first, (find ++ [0])[0]? = some first ∧
      (x = first → ¬ find <+: x :: l) := by
    cases find with
    | nil => exact ⟨0, rfl, fun h => absurd h hx⟩
    | cons y find => exact ⟨y, rfl, fun _ hstarts => hstays ⟨by simp, hstarts⟩⟩
  have hsame : ∀ same, (if x = first then startsWith (front ++ x :: l ++ 0 :: tail) front.length
      find else pure false : Code Bool).Returns same ↔ same = false := by
    intro same
    split
    · rename_i heq
      rw [returns_startsWith hfront hl, decide_eq_false (hne heq)]
    · exact returns_pure
  rw [replaceTurn, returns_bind]
  simp only [returns_load, hread, hfirst, Option.some.injEq, exists_eq_left', if_neg hx,
    returns_bind, hsame, exists_eq_left, Bool.false_eq_true, if_false, returns_pure]

/-- The rest moves to where the replacement ends. -/
theorem returns_move {mem rest : List UInt8} (hroom : n + rep.length + rest.length < mem.length) :
    (writeAll mem n rep >>= fun mem => writeAll mem (n + rep.length) (rest ++ [0])).Returns b ↔
      b = mem.take n ++ rep ++ rest ++ 0 :: mem.drop (n + rep.length + rest.length + 1) := by
  have hlength : (mem.take n ++ rep).length = n + rep.length := by
    rw [List.length_append, List.length_take_of_le (by omega)]
  have hfit : (n + rep.length) + (rest ++ [0]).length ≤
      (mem.take n ++ rep ++ mem.drop (n + rep.length)).length := by
    simp only [List.length_append, List.length_take, List.length_drop, List.length_singleton]
    omega
  rw [returns_bind]
  simp only [returns_writeAll_of_le (show n + rep.length ≤ mem.length by omega), exists_eq_left]
  rw [returns_writeAll_of_le hfit, ← hlength, List.take_left, ← List.drop_drop, List.drop_left,
    hlength, List.drop_drop]
  simp [Nat.add_assoc]

/-- The rest behind an occurrence. An `int` that is not the length of what was found is less by
2^32, or negative; the rest from there is too long. -/
theorem returns_behind {rest text : CString} (hs : 0 ∉ front ++ (find ++ rest)) :
    ((∃ p : Nat, (front.length : Int) + int32 find.length = p ∧
        (string (front ++ (find ++ rest) ++ 0 :: tail) p).Returns text) ∧
          text.length + 1 < 2 ^ 31) ↔
      find.length < 2 ^ 31 ∧ rest.length + 1 < 2 ^ 31 ∧ text = rest := by
  have hi := int32_natCast find.length
  have hlength : (front ++ (find ++ rest)).length = front.length + (find.length + rest.length) := by
    rw [List.length_append, List.length_append]
  have hbehind : (front ++ (find ++ rest)).drop (front.length + find.length) = rest := by
    rw [← List.append_assoc, ← List.length_append, List.drop_left]
  constructor
  · rintro ⟨⟨p, hp, htext⟩, hshort⟩
    have hple : p ≤ (front ++ (find ++ rest)).length := by omega
    rw [returns_string_drop hs hple] at htext
    have hrest : text.length = (front ++ (find ++ rest)).length - p := by
      rw [htext, List.length_drop]
    have hfind : find.length < 2 ^ 31 := by omega
    obtain rfl : p = front.length + find.length := by omega
    rw [hbehind] at htext
    exact ⟨hfind, htext ▸ hshort, htext⟩
  · rintro ⟨hfind, hshort, rfl⟩
    refine ⟨⟨front.length + find.length, by omega, ?_⟩, hshort⟩
    rw [returns_string_drop hs (by omega), hbehind]

theorem returns_replaceTurn_occurs (malloc : Nat → Bool) (calls : Nat) {rest : CString}
    (hne : find ≠ []) (hfront : 0 ∉ front) (hfind : 0 ∉ find) (hrest : 0 ∉ rest)
    (hroom : front.length + rep.length + rest.length <
      (front ++ (find ++ rest) ++ 0 :: tail).length) :
    (replaceTurn malloc find rep
        ⟨front ++ (find ++ rest) ++ 0 :: tail, front.length, calls⟩).Returns r ↔
      find.length < 2 ^ 31 ∧ rest.length + 1 < 2 ^ 31 ∧ malloc calls = true ∧
        r = .inl ⟨front ++ rep ++ rest ++ 0 :: (front ++ (find ++ rest) ++ 0 :: tail).drop
          (front.length + rep.length + rest.length + 1), (front ++ rep).length, calls + 1⟩ := by
  set s := front ++ (find ++ rest) with hsdef
  have hs : 0 ∉ s := by simp [hsdef, hfront, hfind, hrest]
  obtain ⟨x, f, hcons⟩ := List.exists_cons_of_ne_nil hne
  have hread : (s ++ 0 :: tail)[front.length]? = some x := by simp [hsdef, hcons]
  have hx : x ≠ 0 := fun h => hfind (by simp [hcons, h])
  have hfirst : (find ++ [0])[0]? = some x := by simp [hcons]
  have hsame : ∀ same, (startsWith (s ++ 0 :: tail) front.length find).Returns same ↔
      same = true := by
    intro same
    rw [returns_startsWith hfront (by simp [hfind, hrest]),
      decide_eq_true (List.prefix_append _ _)]
  have htake : (s ++ 0 :: tail).take front.length = front := by
    rw [hsdef, List.append_assoc, List.take_left]
  rw [replaceTurn, returns_bind]
  simp only [returns_load, hread, hfirst, Option.some.injEq, exists_eq_left', if_neg hx,
    returns_bind, hsame, exists_eq_left, if_true, returns_offset, returns_int]
  constructor
  · rintro ⟨p, hp, text, htext, _, ⟨-, rfl⟩, _, ⟨hsize, -⟩, hr⟩
    obtain ⟨hshort, hfit, rfl⟩ := (returns_behind hs).mp ⟨⟨p, hp, htext⟩, by omega⟩
    split at hr
    · rename_i hmalloc
      simp only [returns_bind, returns_pure] at hr
      obtain ⟨mem, hmem, mem', hmem', rfl⟩ := hr
      have hmove := (returns_move hroom).mp (returns_bind.mpr ⟨mem, hmem, hmem'⟩)
      rw [hmove, htake, List.length_append]
      exact ⟨hshort, hfit, hmalloc, rfl⟩
    · exact absurd hr not_returns_undefined
  · rintro ⟨hshort, hfit, hmalloc, rfl⟩
    obtain ⟨⟨p, hp, htext⟩, -⟩ := (returns_behind hs).mpr ⟨hshort, hfit, rfl⟩
    obtain ⟨mem, hmem, hmem'⟩ := returns_bind.mp ((returns_move hroom).mpr rfl)
    refine ⟨p, hp, rest, htext, _, ⟨by omega, rfl⟩, _, ⟨by omega, rfl⟩, ?_⟩
    simp only [if_pos hmalloc, returns_bind, returns_pure]
    rw [htake] at hmem'
    rw [List.length_append]
    exact ⟨mem, hmem, _, hmem', rfl⟩

/-! ## The loop -/

/-- What the occurrences in `l` need. The first has the longest rest behind it. -/
def Replaceable (malloc : Nat → Bool) (find : CString) (calls : Nat) (l : CString) : Prop :=
  find ≠ [] → ∀ n, occurrence find l = some n →
    find.length < 2 ^ 31 ∧ l.length - (n + find.length) + 1 < 2 ^ 31 ∧
      ∀ k < replacements find l, malloc (calls + k) = true

theorem replaceable_stays {x : UInt8} (hstays : ¬ (find ≠ [] ∧ find <+: x :: l)) :
    Replaceable malloc find calls (x :: l) ↔ Replaceable malloc find calls l := by
  rw [Replaceable, Replaceable]
  refine imp_congr_right fun hne => ?_
  rw [occurrence, if_neg fun h => hstays ⟨hne, h⟩, replacements_cons hstays, List.length_cons]
  constructor
  · intro h n hn
    have hnext := h (n + 1) (by rw [hn]; rfl)
    rwa [show l.length + 1 - (n + 1 + find.length) = l.length - (n + find.length) by omega] at hnext
  · intro h _ hsome
    obtain ⟨n, hn, rfl⟩ := Option.map_eq_some_iff.mp hsome
    rw [show l.length + 1 - (n + 1 + find.length) = l.length - (n + find.length) by omega]
    exact h n hn

theorem replaceable_occurs {rest : CString} (hne : find ≠ []) :
    Replaceable malloc find calls (find ++ rest) ↔
      find.length < 2 ^ 31 ∧ rest.length + 1 < 2 ^ 31 ∧ malloc calls = true ∧
        Replaceable malloc find (calls + 1) rest := by
  have hhere : occurrence find (find ++ rest) = some 0 :=
    occurrence_eq_some_iff.mpr ⟨List.prefix_append _ _, fun m hm => absurd hm (Nat.not_lt_zero m)⟩
  have hcalls : (∀ k < replacements find rest + 1, malloc (calls + k) = true) ↔
      malloc calls = true ∧ ∀ k < replacements find rest, malloc (calls + 1 + k) = true := by
    constructor
    · intro h
      refine ⟨h 0 (Nat.succ_pos _), fun k hk => ?_⟩
      rw [Nat.add_assoc, Nat.add_comm 1]
      exact h (k + 1) (by omega)
    · rintro ⟨hfirst, hrest⟩ k hk
      cases k with
      | zero => exact hfirst
      | succ k =>
        have hnext := hrest k (by omega)
        rwa [Nat.add_assoc, Nat.add_comm 1] at hnext
  have hlength : (find ++ rest).length - (0 + find.length) = rest.length := by
    rw [List.length_append]
    omega
  have hfirst : Replaceable malloc find calls (find ++ rest) ↔
      find.length < 2 ^ 31 ∧ rest.length + 1 < 2 ^ 31 ∧
        ∀ k < replacements find rest + 1, malloc (calls + k) = true := by
    rw [Replaceable, hhere, replacements_append hne]
    constructor
    · intro h
      have h0 := h hne 0 rfl
      rwa [hlength] at h0
    · rintro h - n hn
      cases hn
      rwa [hlength]
  rw [hfirst, hcalls]
  constructor
  · rintro ⟨hfind, hshort, hmalloc, hnext⟩
    exact ⟨hfind, hshort, hmalloc, fun _ n hn => ⟨hfind, by omega, hnext⟩⟩
  · rintro ⟨hfind, hshort, hmalloc, hnext⟩
    refine ⟨hfind, hshort, hmalloc, ?_⟩
    cases hn : occurrence find rest with
    | none =>
      rw [replacements_eq_zero hn]
      exact fun k hk => absurd hk (Nat.not_lt_zero k)
    | some n => exact (hnext hne n hn).2.2

/-- The part in front of `strSrc` stays, and what is left of the string is replaced. -/
theorem returns_replace (hfront : 0 ∉ front) (hfind : 0 ∉ find) (hrep : 0 ∉ rep) (hl : 0 ∉ l)
    (hroom : front.length + (replaceAll find rep l).length < (front ++ l ++ 0 :: tail).length) :
    (∃ after, (loop (replaceTurn malloc find rep)
        ⟨front ++ l ++ 0 :: tail, front.length, calls⟩).Returns
          (front ++ replaceAll find rep l ++ 0 :: after)) ↔ Replaceable malloc find calls l := by
  induction l using replacement_induction find generalizing front tail calls with
  | nil =>
    refine iff_of_true ⟨tail, ?_⟩ fun hne n hn => ?_
    · refine returns_loop_of_done ?_
      rw [replaceAll_nil, List.append_nil, returns_replaceTurn_nil]
    · rw [occurrence, if_neg hne] at hn
      cases hn
  | occurs rest hne ih =>
    have hrest : 0 ∉ rest := fun h => hl (List.mem_append_right _ h)
    rw [replaceAll_append hne, List.length_append] at hroom
    have hmove : front.length + rep.length + rest.length <
        (front ++ (find ++ rest) ++ 0 :: tail).length := by
      have hlonger : find.length ≤ rep.length →
          rest.length ≤ (replaceAll find rep rest).length := fun h => length_le_replaceAll h rest
      simp only [List.length_append, List.length_cons] at hroom ⊢
      omega
    have hturn := fun r =>
      returns_replaceTurn_occurs malloc calls (r := r) hne hfront hfind hrest hmove
    generalize hmem : front ++ (find ++ rest) ++ 0 :: tail = mem at *
    have hih : (∃ after, (loop (replaceTurn malloc find rep)
        ⟨front ++ rep ++ rest ++ 0 :: mem.drop (front.length + rep.length + rest.length + 1),
          (front ++ rep).length, calls + 1⟩).Returns
            (front ++ rep ++ replaceAll find rep rest ++ 0 :: after)) ↔
          Replaceable malloc find (calls + 1) rest := by
      refine ih (by simp [hfront, hrep]) hrest ?_
      simp only [List.length_append, List.length_cons, List.length_drop]
      omega
    have hagain := fun out => returns_loop_iff_again (a := out) fun r => by
      rw [hturn r, ← and_assoc, ← and_assoc]
    rw [replaceable_occurs hne, ← hih, replaceAll_append hne, ← List.append_assoc front rep]
    simp only [hagain, exists_and_left, and_assoc]
  | stays x l hstays ih =>
    have hx : x ≠ 0 := fun h => hl (h ▸ List.mem_cons_self)
    have hnext : 0 ∉ l := fun h => hl (List.mem_cons_of_mem _ h)
    have hturn : (replaceTurn malloc find rep ⟨front ++ x :: l ++ 0 :: tail, front.length,
        calls⟩).Returns (.inl ⟨front ++ x :: l ++ 0 :: tail, front.length + 1, calls⟩) :=
      (returns_replaceTurn_stays hfront hl hstays).mpr rfl
    have hih : (∃ after, (loop (replaceTurn malloc find rep)
        ⟨front ++ [x] ++ l ++ 0 :: tail, (front ++ [x]).length, calls⟩).Returns
          (front ++ [x] ++ replaceAll find rep l ++ 0 :: after)) ↔
        Replaceable malloc find calls l := by
      refine ih (by simp [hfront, Ne.symm hx]) hnext ?_
      rw [replaceAll_cons hstays] at hroom
      simp only [List.length_append, List.length_cons, List.length_nil] at hroom ⊢
      omega
    simp only [← List.append_cons, List.length_append, List.length_singleton] at hih
    rw [replaceable_stays hstays, ← hih, replaceAll_cons hstays]
    simp only [returns_loop_of_again hturn]

/-! ## The function -/

/-- The string in the buffer ends up as it should; `tail` is what the buffer holds behind it. -/
def Replaces (malloc : Nat → Bool) (src tail find rep : CString) : Prop :=
  ∃ after, (strReplace malloc (src ++ 0 :: tail) find rep).Returns
    (replaceAll find rep src ++ 0 :: after)

theorem replaces_iff_replaceable {src : CString} (hsrc : 0 ∉ src) (hfind : 0 ∉ find)
    (hrep : 0 ∉ rep) (hroom : (replaceAll find rep src).length < (src ++ 0 :: tail).length) :
    Replaces malloc src tail find rep ↔ Replaceable malloc find 0 src := by
  refine returns_replace List.not_mem_nil hfind hrep hsrc ?_
  rwa [List.length_nil, Nat.zero_add, List.nil_append]

/-- `str_replace` replaces every occurrence if there is none, or if the string found and the rest
behind the first occurrence, with its NUL, have lengths that are an `int`, and memory is there for
each occurrence. -/
theorem replaces_iff (malloc : Nat → Bool) (src tail find rep : CString) (hsrc : 0 ∉ src)
    (hfind : 0 ∉ find) (hrep : 0 ∉ rep)
    (hroom : (replaceAll find rep src).length < (src ++ 0 :: tail).length) :
    Replaces malloc src tail find rep ↔
      find = [] ∨ occurrence find src = none ∨
        ∃ n, occurrence find src = some n ∧ find.length < 2 ^ 31 ∧
          src.length - (n + find.length) + 1 < 2 ^ 31 ∧
          ∀ k < replacements find src, malloc k = true := by
  rw [replaces_iff_replaceable hsrc hfind hrep hroom, Replaceable]
  simp only [Nat.zero_add]
  rcases Decidable.em (find = []) with hnil | hne
  · exact iff_of_true (fun h => absurd hnil h) (Or.inl hnil)
  · rw [or_iff_right hne]
    cases occurrence find src with
    | none => simp
    | some n => simp [hne]

/-- The dots that are put in are not looked at again. -/
theorem replaces_dots : Replaces (fun _ => true) (bytes "a.b.c") [0, 0] (bytes ".") (bytes "..") :=
  (replaces_iff (fun _ => true) (bytes "a.b.c") [0, 0] (bytes ".") (bytes "..") (by decide)
    (by decide) (by decide) (by simp [bytes_eq, replaceAll])).mpr
    (Or.inr (Or.inr ⟨1, by decide, by decide, by decide, fun _ _ => rfl⟩))

theorem not_replaces_of_le (hn : 2 ^ 31 ≤ n + 1) :
    ¬ Replaces malloc (bytes "a" ++ List.replicate n 98) [] (bytes "a") (bytes "c") := by
  have hnone : occurrence (bytes "a") (List.replicate n 98) = none := by
    rw [occurrence_eq_none_iff]
    intro hpart
    have hmem : 97 ∈ List.replicate n (98 : UInt8) :=
      hpart.subset (show 97 ∈ bytes "a" by decide)
    exact absurd (List.eq_of_mem_replicate hmem) (by decide)
  have hsrc : 0 ∉ bytes "a" ++ List.replicate n 98 := by simp [bytes_eq]
  have hroom : (replaceAll (bytes "a") (bytes "c") (bytes "a" ++ List.replicate n 98)).length <
      (bytes "a" ++ List.replicate n 98 ++ 0 :: []).length := by
    rw [replaceAll_append (by decide), replaceAll_eq_self hnone]
    simp [bytes_eq]
  rw [replaces_iff_replaceable hsrc (by decide) (by decide) hroom,
    replaceable_occurs (by decide)]
  rintro ⟨-, hshort, -⟩
  rw [List.length_replicate] at hshort
  omega

/-- With a rest of 2^31 - 1 bytes the size for `malloc` overflows. -/
theorem not_replaces_long : ¬ Replaces (fun _ => true)
    (bytes "a" ++ List.replicate (2 ^ 31 - 1) 98) [] (bytes "a") (bytes "c") :=
  not_replaces_of_le (by decide)

end Memory

end HfDfs
