import HfDfs.Properties.Refusal

/-!
# When the presence test is exact

`rop_zset_exit` counts the members from the mark to the mark. Redis keeps
the set by score first, so the scans behind the count can stop before the
mark, jump over it or run past it. A ziplist is scanned from its start. The
levels of a skiplist hide nodes from each other: on the way to a node the
scan meets those before it that no later one overtops, and behind it those
that overtop all nodes in between.
-/

namespace HfDfs

set_option autoImplicit false

open Procedures ScoredSets Zlexcount

namespace Zlexcount

/-- The nodes that no later one overtops. -/
def lastTowers (height : CString → Nat) : List CString → List CString
  | [] => []
  | e :: rest =>
    if ∀ x ∈ rest, height x ≤ height e then e :: lastTowers height rest else lastTowers height rest

/-- The nodes that overtop all earlier ones. -/
def firstTowers (height : CString → Nat) : List CString → List CString
  | [] => []
  | y :: rest => y :: (firstTowers height rest).filter (height y < height ·)

/-- What the scans for `m` need of the members before and behind it. -/
def Exposed (before : List CString) (m : CString) (behind : List CString) : Encoding → Prop
  | .ziplist => (∀ e ∈ before, e < m) ∧ ∀ y ∈ behind.head?, m < y
  | .skiplist height => (∀ e ∈ lastTowers height before, e < m) ∧
      ∀ y ∈ firstTowers height behind, m < y

/-- The range test passes: the set begins at or below `m` and ends at or above it. -/
def Spanned (before : List CString) (m : CString) (behind : List CString) : Prop :=
  (∀ e ∈ before.head?, e < m) ∧ ∀ y ∈ behind.getLast?, m < y

/-! ## Towers -/

section Towers

variable {height : CString → Nat}

theorem lastTowers_append_cons {skipped rest : List CString} {e : CString}
    (hskipped : ∀ x ∈ skipped, height x < height e) (hrest : ∀ x ∈ rest, height x ≤ height e) :
    lastTowers height (skipped ++ e :: rest) = e :: lastTowers height rest := by
  induction skipped with
  | nil => rw [List.nil_append, lastTowers, if_pos hrest]
  | cons x skipped ih =>
    have hx : ¬ ∀ y ∈ skipped ++ e :: rest, height y ≤ height x := by
      intro h
      have he := h e (by simp)
      have := hskipped x List.mem_cons_self
      omega
    rw [List.cons_append, lastTowers, if_neg hx]
    exact ih fun y hy => hskipped y (List.mem_cons_of_mem x hy)

theorem lastTowers_concat_subset {before : List CString} {m e : CString}
    (h : e ∈ lastTowers height (before ++ [m])) : e ∈ lastTowers height before ∨ e = m := by
  induction before with
  | nil => simpa [lastTowers] using h
  | cons x before ih =>
    rw [List.cons_append, lastTowers] at h
    split at h
    · rename_i htop
      rcases List.mem_cons.mp h with rfl | h
      · left
        rw [lastTowers, if_pos fun y hy => htop y (by simp [hy])]
        exact List.mem_cons_self
      · exact (ih h).imp_left fun he => by
          rw [lastTowers]
          split
          · exact List.mem_cons_of_mem _ he
          · exact he
    · exact (ih h).imp_left fun he => by
        rw [lastTowers]
        split
        · exact List.mem_cons_of_mem _ he
        · exact he

theorem lastTowers_subset (l : List CString) : lastTowers height l ⊆ l := by
  induction l with
  | nil => exact List.Subset.refl []
  | cons e rest ih =>
    rw [lastTowers]
    split
    · exact List.cons_subset_cons e ih
    · exact List.subset_cons_of_subset e ih

theorem firstTowers_subset (l : List CString) : firstTowers height l ⊆ l := by
  induction l with
  | nil => exact List.Subset.refl []
  | cons y rest ih =>
    exact List.cons_subset_cons y (List.Subset.trans List.filter_sublist.subset ih)

/-- Every tower is the first node of its top level. -/
theorem find_of_mem_firstTowers {l : List CString} {y : CString} (h : y ∈ firstTowers height l) :
    l.find? (height y ≤ height ·) = some y := by
  induction l with
  | nil => cases h
  | cons a rest ih =>
    rcases List.mem_cons.mp h with rfl | h
    · simp
    · obtain ⟨hmem, hlt⟩ := List.mem_filter.mp h
      have hle : ¬ height y ≤ height a := not_le.mpr (of_decide_eq_true hlt)
      rw [List.find?_cons_of_neg (by simpa using hle)]
      exact ih hmem

/-- The first node of any level is a tower. -/
theorem mem_firstTowers_of_find {l : List CString} {y : CString} {level : Nat}
    (h : l.find? (level ≤ height ·) = some y) : y ∈ firstTowers height l := by
  induction l with
  | nil => cases h
  | cons a rest ih =>
    rw [firstTowers]
    by_cases ha : level ≤ height a
    · rw [List.find?_cons_of_pos (by simpa using ha)] at h
      obtain rfl := Option.some.inj h
      exact List.mem_cons_self
    · rw [List.find?_cons_of_neg (by simpa using ha)] at h
      have hy : level ≤ height y := by simpa using List.find?_some h
      refine List.mem_cons_of_mem a (List.mem_filter.mpr ⟨ih h, ?_⟩)
      exact decide_eq_true (by omega)

end Towers

/-! ## Where a walk down the levels ends -/

section Walk

variable {height : CString → Nat} {p : CString → Bool}

/-- A level with a node that fails `p` is not followed beyond it. -/
theorem suffix_walkLevel {level : Nat} {e : CString} (he : level ≤ height e) (hp : p e = false)
    (x : Option CString) {after search : List CString} (hsearch : search <:+ after)
    {behind : List CString} (hmem : e :: behind <:+ search) :
    e :: behind <:+ (walkLevel height level p x after search).2 := by
  induction search generalizing x after with
  | nil => exact absurd hmem (by simp)
  | cons n rest ih =>
    have hafter : e :: behind <:+ after := hmem.trans hsearch
    rw [walkLevel]
    split
    · split
      · rename_i hn
        refine ih (some n) (List.suffix_refl rest) ?_
        rcases List.suffix_cons_iff.mp hmem with heq | hmem
        · obtain ⟨rfl, -⟩ := List.cons.inj heq
          rw [hp] at hn
          cases hn
        · exact hmem
      · exact hafter
    · rename_i hn
      refine ih x ((List.suffix_cons n rest).trans hsearch) ?_
      rcases List.suffix_cons_iff.mp hmem with heq | hmem
      · obtain ⟨rfl, -⟩ := List.cons.inj heq
        exact absurd he hn
      · exact hmem

/-- A node that fails `p` and stands on all the levels left is never passed. -/
theorem suffix_walk {n : Nat} {e : CString} (he : n ≤ height e + 1) (hp : p e = false)
    (position : Option CString × List CString) {behind : List CString}
    (hmem : e :: behind <:+ position.2) : e :: behind <:+ (walk height p n position).2 := by
  induction n generalizing position with
  | zero => exact hmem
  | succ level ih =>
    refine ih (by omega) _ ?_
    exact suffix_walkLevel (by omega) hp _ (List.suffix_refl _) hmem

/-- Where no node of the level is left, or the next one fails `p`, the walk stays. -/
theorem walkLevel_stay {level : Nat} (x : Option CString) (after : List CString)
    {search : List CString} (h : ∀ y, search.find? (level ≤ height ·) = some y → p y = false) :
    walkLevel height level p x after search = (x, after) := by
  induction search with
  | nil => rfl
  | cons n rest ih =>
    rw [walkLevel]
    by_cases hn : level ≤ height n
    · rw [List.find?_cons_of_pos (by simpa using hn)] at h
      rw [if_pos hn, if_neg (by simp [h n rfl])]
    · rw [List.find?_cons_of_neg (by simpa using hn)] at h
      rw [if_neg hn, ih h]

/-- Where the next node of the level satisfies `p` the walk goes on into what follows it. -/
theorem length_walkLevel_lt {level : Nat} (x : Option CString) (after : List CString)
    {search : List CString} {y : CString} (h : search.find? (level ≤ height ·) = some y)
    (hp : p y = true) : (walkLevel height level p x after search).2.length < search.length := by
  induction search with
  | nil => cases h
  | cons n rest ih =>
    rw [walkLevel]
    by_cases hn : level ≤ height n
    · rw [List.find?_cons_of_pos (by simpa using hn)] at h
      obtain rfl := Option.some.inj h
      rw [if_pos hn, if_pos hp, List.length_cons]
      have := (walkLevel_suffix height level p (some n) rest rest (List.suffix_refl _)).length_le
      omega
    · rw [List.find?_cons_of_neg (by simpa using hn)] at h
      rw [if_neg hn]
      have := ih h
      rw [List.length_cons]
      omega

/-- A walk over the levels below `n` ends in front of `rest`. -/
def StopsAt (height : CString → Nat) (p : CString → Bool) (n : Nat)
    (before rest : List CString) : Prop :=
  (∀ e ∈ lastTowers height before, p e = true) ∧
    ∀ level < n, ∀ y, rest.find? (level ≤ height ·) = some y → p y = false

/-- One more level on top. The induction is on the part of the level still to be searched;
`skipped` are the nodes below the level that the walk has behind it but not left. -/
theorem walkLevel_iff {n : Nat} {rest : List CString}
    (ih : ∀ (x : Option CString) (before : List CString), (∀ e ∈ before, height e < n) →
      ((walk height p n (x, before ++ rest)).2 = rest ↔ StopsAt height p n before rest))
    (x : Option CString) (skipped search : List CString) (hskipped : ∀ e ∈ skipped, height e < n)
    (hsearch : ∀ e ∈ search, height e < n + 1) :
    (walk height p n (walkLevel height n p x (skipped ++ search ++ rest) (search ++ rest))).2 = rest ↔
      StopsAt height p (n + 1) (skipped ++ search) rest := by
  induction search generalizing x skipped with
  | nil =>
    rw [List.append_nil, List.nil_append]
    by_cases hstay : ∀ y, rest.find? (n ≤ height ·) = some y → p y = false
    · rw [walkLevel_stay x _ hstay, ih x skipped hskipped, StopsAt, StopsAt]
      refine and_congr_right fun _ => ⟨fun h level hlevel => ?_, fun h level hlevel => ?_⟩
      · rcases Nat.lt_succ_iff_lt_or_eq.mp hlevel with hlt | rfl
        · exact h level hlt
        · exact hstay
      · exact h level (by omega)
    · refine iff_of_false (fun heq => ?_) (fun h => hstay (h.2 n (by omega)))
      -- the walk has left `rest` behind
      push Not at hstay
      obtain ⟨y, hy, hp⟩ := hstay
      have hlt := length_walkLevel_lt x (skipped ++ rest) hy (by simpa using hp)
      have hle := (walk_suffix height p n
        (walkLevel height n p x (skipped ++ rest) rest)).length_le
      rw [heq] at hle
      omega
  | cons e search hrec =>
    rw [List.cons_append, walkLevel]
    have htail : ∀ e ∈ search, height e < n + 1 := fun y hy => hsearch y (List.mem_cons_of_mem e hy)
    by_cases he : n ≤ height e
    · have htop : height e = n := by
        have := hsearch e List.mem_cons_self
        omega
      have htowers : lastTowers height (skipped ++ e :: search) = e :: lastTowers height search :=
        lastTowers_append_cons (fun y hy => by have := hskipped y hy; omega)
          fun y hy => by have := htail y hy; omega
      rw [if_pos he]
      by_cases hp : p e = true
      · rw [if_pos hp]
        have hmid := hrec (some e) [] (by simp) htail
        rw [List.nil_append] at hmid
        rw [hmid, StopsAt, StopsAt, htowers]
        simp [hp]
      · rw [if_neg hp]
        refine iff_of_false (fun heq => ?_) (fun h => hp (h.1 e (by simp [htowers])))
        have hkept := suffix_walk (Nat.le_succ_of_le he) (Bool.eq_false_iff.mpr hp)
          (x, skipped ++ e :: search ++ rest)
          (show e :: (search ++ rest) <:+ skipped ++ e :: search ++ rest by simp)
        rw [heq] at hkept
        have := hkept.length_le
        rw [List.length_cons, List.length_append] at this
        omega
    · rw [if_neg he]
      have hmid := hrec x (skipped ++ [e]) (by
        intro y hy
        rcases List.mem_append.mp hy with hy | hy
        · exact hskipped y hy
        · rw [List.mem_singleton.mp hy]
          omega) htail
      rwa [List.append_cons skipped e search]

theorem walk_iff {n : Nat} (x : Option CString) {before rest : List CString}
    (hbefore : ∀ e ∈ before, height e < n) :
    (walk height p n (x, before ++ rest)).2 = rest ↔ StopsAt height p n before rest := by
  induction n generalizing x before with
  | zero =>
    have hnil : before = [] := List.eq_nil_iff_forall_not_mem.mpr fun e he => by
      have := hbefore e he
      omega
    subst hnil
    exact iff_of_true rfl ⟨by simp [lastTowers], by simp⟩
  | succ n ih =>
    have hlevel := walkLevel_iff (fun x before h => ih x h) x [] before (by simp) hbefore
    rw [List.nil_append] at hlevel
    exact hlevel

theorem height_lt_levels {members : List CString} {e : CString} (h : e ∈ members) :
    height e < levels height members := by
  rw [levels]
  induction members with
  | nil => cases h
  | cons a rest ih =>
    rw [List.map_cons, List.foldr_cons]
    rcases List.mem_cons.mp h with rfl | h
    · omega
    · have := ih h
      omega

/-- The walk over all levels, in terms of the towers. -/
theorem walk_levels_iff (height : CString → Nat) (p : CString → Bool)
    (before rest : List CString) :
    (walk height p (levels height (before ++ rest)) (none, before ++ rest)).2 = rest ↔
      (∀ e ∈ lastTowers height before, p e = true) ∧
        ∀ y ∈ firstTowers height rest, p y = false := by
  rw [walk_iff none fun e he => height_lt_levels (List.mem_append_left rest he), StopsAt]
  refine and_congr_right fun _ => ⟨fun h y hy => ?_, fun h level _ y hy => ?_⟩
  · have hfind := find_of_mem_firstTowers hy
    have hmem : y ∈ before ++ rest := List.mem_append_right before (List.mem_of_find?_eq_some hfind)
    exact h (height y) (height_lt_levels hmem) y hfind
  · exact h y (mem_firstTowers_of_find hy)

/-- The walk stands on the last member it has behind it. -/
def Stands (members : List CString) (position : Option CString × List CString) : Prop :=
  ∃ passed, members = passed ++ position.2 ∧ passed.getLast? = position.1

theorem stands_walkLevel {members : List CString} (level : Nat) {x : Option CString}
    {after search : List CString} (h : Stands members (x, after)) (hsearch : search <:+ after) :
    Stands members (walkLevel height level p x after search) := by
  induction search generalizing x after with
  | nil => exact h
  | cons n rest ih =>
    rw [walkLevel]
    split
    · split
      · refine ih ?_ (List.suffix_refl rest)
        obtain ⟨passed, hmembers, -⟩ := h
        obtain ⟨skipped, rfl⟩ := hsearch
        exact ⟨passed ++ skipped ++ [n], by simp [hmembers], by simp⟩
      · exact h
    · exact ih h ((List.suffix_cons n rest).trans hsearch)

theorem stands_walk (height : CString → Nat) (p : CString → Bool) (n : Nat)
    (members : List CString) : Stands members (walk height p n (none, members)) := by
  suffices h : ∀ position, Stands members position → Stands members (walk height p n position) from
    h _ ⟨[], rfl, rfl⟩
  induction n with
  | zero => exact fun position h => h
  | succ level ih => exact fun position h => ih _ (stands_walkLevel level h (List.suffix_refl _))

/-- The walk stands on a node that satisfies `p`. -/
theorem walkLevel_fst {level : Nat} {x : Option CString} (hx : ∀ y ∈ x, p y = true)
    (after search : List CString) : ∀ y ∈ (walkLevel height level p x after search).1, p y = true := by
  induction search generalizing x after with
  | nil => exact hx
  | cons n rest ih =>
    rw [walkLevel]
    split
    · split
      · rename_i hn
        refine ih (x := some n) ?_ rest
        rintro y hy
        rwa [← Option.some.inj hy]
      · exact hx
    · exact ih hx after

theorem walk_fst (height : CString → Nat) (p : CString → Bool) (n : Nat) (members : List CString) :
    ∀ y ∈ (walk height p n (none, members)).1, p y = true := by
  suffices h : ∀ position : Option CString × List CString, (∀ y ∈ position.1, p y = true) →
      ∀ y ∈ (walk height p n position).1, p y = true from h _ (by simp)
  induction n with
  | zero => exact fun position h => h
  | succ level ih => exact fun position h => ih _ (walkLevel_fst h position.2 position.2)

end Walk

/-! ## The count of a member -/

section Count

variable {before behind : List CString} {m : CString}

theorem isInLexRange_iff (hbefore : m ∉ before) (hbehind : m ∉ behind) :
    isInLexRange (before ++ m :: behind) m = true ↔ Spanned before m behind := by
  have hfirst : (before ++ m :: behind).head? = some (before.head?.getD m) := by
    cases before <;> rfl
  have hlast : (before ++ m :: behind).getLast? = some (behind.getLast?.getD m) := by
    rw [List.getLast?_append, List.getLast?_cons, Option.some_or]
  have hlow : before.head?.getD m ≤ m ↔ ∀ e ∈ before.head?, e < m := by
    cases before with
    | nil => simp
    | cons a rest =>
      have hne : a ≠ m := fun h => hbefore (h ▸ List.mem_cons_self)
      simp [le_iff_lt_or_eq, hne]
  have hhigh : m ≤ behind.getLast?.getD m ↔ ∀ y ∈ behind.getLast?, m < y := by
    cases hy : behind.getLast? with
    | none => simp
    | some y =>
      have hne : m ≠ y := fun h => hbehind (h ▸ List.mem_of_getLast? hy)
      simp [le_iff_lt_or_eq, hne]
  rw [isInLexRange, hfirst, hlast]
  simp only [Bool.and_eq_true, decide_eq_true_eq, hlow, hhigh, Spanned]
  exact and_comm

theorem zlexcount_ziplist_iff (hbefore : m ∉ before) (hbehind : m ∉ behind) :
    zlexcount (before ++ m :: behind) m .ziplist = 1 ↔
      Spanned before m behind ∧ Exposed before m behind .ziplist := by
  rw [← isInLexRange_iff hbefore hbehind, Exposed, zlexcount, zzlFirstInLexRange]
  cases hrange : isInLexRange (before ++ m :: behind) m with
  | false => simp
  | true =>
    rw [if_pos rfl, and_iff_right rfl]
    by_cases hall : ∀ e ∈ before, e < m
    · -- the scan starts at `m` and must stop at once behind it
      have hdrop : (before ++ m :: behind).dropWhile (· < m) = m :: behind := by
        rw [List.dropWhile_append_of_pos (by simpa using hall)]
        simp
      simp only [hdrop, le_refl, if_true, and_iff_right hall]
      cases behind with
      | nil => simp
      | cons y rest =>
        have hne : m ≠ y := fun h => hbehind (h ▸ List.mem_cons_self)
        by_cases hy : y ≤ m
        · simp [hy]
        · simp [hy, not_le.mp hy]
    · -- the scan stops at a greater member before `m`
      refine iff_of_false ?_ (fun h => hall h.1)
      push Not at hall
      obtain ⟨e, he, hge⟩ := hall
      obtain ⟨a, rest, hdrop⟩ : ∃ a rest, before.dropWhile (· < m) = a :: rest := by
        cases hdrop : before.dropWhile (· < m) with
        | nil => exact absurd (List.dropWhile_eq_nil_iff.mp hdrop e he) (by simpa using hge)
        | cons a rest => exact ⟨a, rest, rfl⟩
      have hmem : a ∈ before :=
        (List.dropWhile_sublist _).subset (hdrop ▸ List.mem_cons_self)
      have hnot : ¬ a < m := by
        have := List.head_dropWhile_not (· < m) (l := before) (by simp [hdrop])
        simpa [hdrop] using this
      have hgt : ¬ a ≤ m := fun hle =>
        hbefore (le_antisymm hle (not_lt.mp hnot) ▸ hmem)
      simp [List.dropWhile_append, hdrop, hgt]

theorem zslFirstInLexRange_iff (height : CString → Nat) (hbefore : m ∉ before)
    (hbehind : m ∉ behind) :
    zslFirstInLexRange height (before ++ m :: behind) m = some m ↔
      Spanned before m behind ∧ (∀ e ∈ lastTowers height before, e < m) ∧
        ∀ y ∈ firstTowers height (m :: behind), ¬ y < m := by
  have hstops := walk_levels_iff height (· < m) before (m :: behind)
  simp only [decide_eq_true_eq, decide_eq_false_iff_not] at hstops
  rw [← isInLexRange_iff hbefore hbehind, ← hstops, zslFirstInLexRange]
  cases hrange : isInLexRange (before ++ m :: behind) m with
  | false => simp
  | true =>
    rw [if_pos rfl, and_iff_right rfl]
    obtain ⟨passed, hmembers, -⟩ := stands_walk height (· < m)
      (levels height (before ++ m :: behind)) (before ++ m :: behind)
    split
    · rename_i hnil
      simp [hnil]
    · rename_i n rest hwalk
      rw [hwalk] at hmembers ⊢
      constructor
      · intro h
        split at h
        · obtain rfl := Option.some.inj h
          obtain ⟨-, -, rfl⟩ := (List.append_cons_inj_of_notMem hbefore hbehind).mp hmembers
          rfl
        · cases h
      · intro h
        obtain ⟨rfl, -⟩ := List.cons.inj h
        exact if_pos le_rfl

theorem zslLastInLexRange_iff (height : CString → Nat) (hbefore : m ∉ before)
    (hbehind : m ∉ behind) :
    zslLastInLexRange height (before ++ m :: behind) m = some m ↔
      Spanned before m behind ∧ (∀ e ∈ lastTowers height (before ++ [m]), e ≤ m) ∧
        ∀ y ∈ firstTowers height behind, ¬ y ≤ m := by
  have hstops := walk_levels_iff height (· ≤ m) (before ++ [m]) behind
  simp only [decide_eq_true_eq, decide_eq_false_iff_not] at hstops
  rw [← List.append_cons] at hstops
  rw [← isInLexRange_iff hbefore hbehind, ← hstops, zslLastInLexRange]
  cases hrange : isInLexRange (before ++ m :: behind) m with
  | false => simp
  | true =>
    rw [if_pos rfl, and_iff_right rfl]
    obtain ⟨passed, hmembers, hlast⟩ := stands_walk height (· ≤ m)
      (levels height (before ++ m :: behind)) (before ++ m :: behind)
    constructor
    · intro h
      split at h
      · cases h
      · rename_i x hx
        split at h
        · obtain rfl := Option.some.inj h
          obtain ⟨init, rfl⟩ := List.getLast?_eq_some_iff.mp (hlast.trans hx)
          rw [← List.append_cons] at hmembers
          obtain ⟨-, -, hbehind⟩ := (List.append_cons_inj_of_notMem hbefore hbehind).mp hmembers
          exact hbehind.symm
        · cases h
    · intro h
      rw [h, List.append_cons] at hmembers
      have hpassed := List.append_cancel_right hmembers
      rw [← hpassed, List.getLast?_concat] at hlast
      simp [← hlast]

/-- The first scan finds nothing but `m`. -/
theorem eq_of_zslFirstInLexRange {height : CString → Nat} {members : List CString} {x : CString}
    (h : zslFirstInLexRange height members m = some x) : x = m := by
  rw [zslFirstInLexRange] at h
  split at h
  · split at h
    · cases h
    · rename_i n rest hwalk
      split at h
      · rename_i hle
        obtain rfl := Option.some.inj h
        have hge : ¬ n < m := by simpa using walk_head height (· < m) _ (none, members) hwalk
        exact le_antisymm hle (not_lt.mp hge)
      · cases h
  · cases h

theorem eq_of_zslLastInLexRange {height : CString → Nat} {members : List CString} {x : CString}
    (h : zslLastInLexRange height members m = some x) : x = m := by
  rw [zslLastInLexRange] at h
  split at h
  · split at h
    · cases h
    · rename_i y hwalk
      split at h
      · rename_i hge
        obtain rfl := Option.some.inj h
        have hle := walk_fst height (· ≤ m) (levels height members) members y hwalk
        exact le_antisymm (of_decide_eq_true hle) hge
      · cases h
  · cases h

/-- A skiplist counts 1 when both scans find `m`. -/
theorem zlexcount_skiplist_eq (height : CString → Nat) (hbefore : m ∉ before) :
    zlexcount (before ++ m :: behind) m (.skiplist height) =
      if zslFirstInLexRange height (before ++ m :: behind) m = some m then
        if zslLastInLexRange height (before ++ m :: behind) m = some m then 1
        else behind.length + 1
      else 0 := by
  have hrank : zslGetRank (before ++ m :: behind) m = before.length + 1 := by
    rw [zslGetRank, List.idxOf_append_of_notMem hbefore, List.idxOf_cons_self, Nat.add_zero]
  rw [zlexcount]
  cases hfirst : zslFirstInLexRange height (before ++ m :: behind) m with
  | none => rfl
  | some x =>
    obtain rfl := eq_of_zslFirstInLexRange hfirst
    cases hlast : zslLastInLexRange height (before ++ x :: behind) x with
    | none =>
      simp only [hrank, List.length_append, List.length_cons, if_true, reduceCtorEq, if_false]
      omega
    | some y =>
      obtain rfl := eq_of_zslLastInLexRange hlast
      simp only [hrank, List.length_append, List.length_cons, if_true]
      omega

theorem zlexcount_skiplist_iff (height : CString → Nat) (hbefore : m ∉ before)
    (hbehind : m ∉ behind) :
    zlexcount (before ++ m :: behind) m (.skiplist height) = 1 ↔
      Spanned before m behind ∧ Exposed before m behind (.skiplist height) := by
  have hfirst := zslFirstInLexRange_iff height hbefore hbehind
  have hlast := zslLastInLexRange_iff height hbefore hbehind
  have hconcat : (∀ e ∈ lastTowers height before, e < m) →
      ∀ e ∈ lastTowers height (before ++ [m]), e ≤ m := by
    intro h e he
    rcases lastTowers_concat_subset he with he | rfl
    · exact (h e he).le
    · exact le_rfl
  rw [zlexcount_skiplist_eq height hbefore]
  constructor
  · intro h
    split at h
    · rename_i hfound
      obtain ⟨hspanned, hlow, -⟩ := hfirst.mp hfound
      refine ⟨hspanned, hlow, fun y hy => ?_⟩
      split at h
      · rename_i hfound'
        exact not_le.mp ((hlast.mp hfound').2.2 y hy)
      · -- the last scan runs past `m` only if something is behind it
        have hnil : behind = [] := List.eq_nil_of_length_eq_zero (by omega)
        rw [hnil] at hy
        cases hy
    · cases h
  · rintro ⟨hspanned, hlow, hhigh⟩
    rw [if_pos (hfirst.mpr ⟨hspanned, hlow, ?_⟩), if_pos (hlast.mpr ⟨hspanned, hconcat hlow, ?_⟩)]
    · intro y hy
      exact not_le.mpr (hhigh y hy)
    · intro y hy
      rw [firstTowers, List.mem_cons, List.mem_filter] at hy
      rcases hy with rfl | ⟨hy, -⟩
      · exact lt_irrefl y
      · exact (hhigh y hy).le.not_gt

theorem zlexcount_eq_one_iff (enc : Encoding) (hbefore : m ∉ before) (hbehind : m ∉ behind) :
    zlexcount (before ++ m :: behind) m enc = 1 ↔
      Spanned before m behind ∧ Exposed before m behind enc := by
  cases enc with
  | ziplist => exact zlexcount_ziplist_iff hbefore hbehind
  | skiplist height => exact zlexcount_skiplist_iff height hbefore hbehind

end Count

/-- What the members of the set have to meet for the mark to be counted right. -/
def Findable (members : List CString) (mark : CString) (enc : Encoding) : Prop :=
  ∀ before behind, members = before ++ mark :: behind →
    Spanned before mark behind ∧ Exposed before mark behind enc

/-- In a set ordered by name the scans find every member. -/
theorem findable_of_ordered {members : List CString} (h : members.Pairwise (· < ·))
    (mark : CString) (enc : Encoding) : Findable members mark enc := by
  rintro before behind rfl
  obtain ⟨-, hbehind, hbefore⟩ := List.pairwise_append.mp h
  have hlow : ∀ e ∈ before, e < mark := fun e he => hbefore e he mark List.mem_cons_self
  have hhigh : ∀ y ∈ behind, mark < y := (List.pairwise_cons.mp hbehind).1
  refine ⟨⟨fun e he => hlow e (List.mem_of_head? he), fun y hy => hhigh y (List.mem_of_getLast? hy)⟩, ?_⟩
  cases enc with
  | ziplist => exact ⟨hlow, fun y hy => hhigh y (List.mem_of_head? hy)⟩
  | skiplist height =>
    exact ⟨fun e he => hlow e (lastTowers_subset before he),
      fun y hy => hhigh y (firstTowers_subset behind hy)⟩

end Zlexcount

/-! ## The test -/

/-- A member of the set that the scans can find is counted once, any other string not at all. -/
theorem zlexcount_eq_iff (z : ScoredSet CString) (mark : CString) (enc : Encoding) :
    zlexcount (z.entries.map Entry.member) mark enc =
        (if mark ∈ z.entries.map Entry.member then 1 else 0) ↔
      Findable (z.entries.map Entry.member) mark enc := by
  by_cases hmem : mark ∈ z.entries.map Entry.member
  · obtain ⟨before, behind, hsplit⟩ := List.append_of_mem hmem
    have hunique := z.unique
    rw [hsplit, List.nodup_middle, List.nodup_cons, List.mem_append, not_or] at hunique
    obtain ⟨⟨hbefore, hbehind⟩, -⟩ := hunique
    rw [if_pos hmem, hsplit, zlexcount_eq_one_iff enc hbefore hbehind]
    constructor
    · intro h before' behind' hsplit'
      obtain ⟨rfl, -, rfl⟩ := (List.append_cons_inj_of_notMem hbefore hbehind).mp hsplit'
      exact h
    · intro h
      exact h before behind rfl
  · rw [if_neg hmem, zlexcount_of_notMem hmem]
    refine iff_of_true rfl fun before behind hsplit => ?_
    rw [hsplit] at hmem
    simp at hmem

/-- `rop_zset_exit` answers 1 for a member of `z` and 0 for any other string. -/
def PresenceExact (enc : Encoding) (mark : CString) (z : ScoredSet CString) (s : Store) : Prop :=
  ((ropZsetExit FILE_PUBLIC_ZSET mark enc).run store s).1 =
    if mark ∈ z.entries.map Entry.member then 1 else 0

/-- Whatever the public set holds and however Redis stores it: the test is exact on a string
if and only if the scans can find it where it is. -/
theorem presenceExact_iff (enc : Encoding) (mark : CString) {z : ScoredSet CString} {s : Store}
    (hz : s.redis.zsetAt FILE_PUBLIC_ZSET = some z) :
    PresenceExact enc mark z s ↔ Findable (z.entries.map Entry.member) mark enc := by
  rw [← zlexcount_eq_iff, PresenceExact, run_ropZsetExit, Redis.presence, hz]
  by_cases hmem : mark ∈ z.entries.map Entry.member
  · simp only [hmem, if_true]
    omega
  · simp only [hmem, if_false]
    omega

/-- The store in which the marks were added with score 0, in this order, and the last one was
then downloaded. -/
def markedStore (first last : CString) : Store :=
  { Store.empty with
    redis := ((Redis.empty.rank 0 first).rank 0 last).download last }

theorem presenceExact_ordered :
    PresenceExact .ziplist (bytes "a") (markedStore (bytes "a") (bytes "b")).redis.publicSet
      (markedStore (bytes "a") (bytes "b")) := by
  refine (presenceExact_iff .ziplist (bytes "a") rfl).mpr (findable_of_ordered ?_ _ _)
  decide

/-- Once the later file has been downloaded, the test misses the earlier one. -/
theorem not_presenceExact_overtaken :
    (markedStore (bytes "b") (bytes "a")).redis.zsetAt FILE_PUBLIC_ZSET =
      some (markedStore (bytes "b") (bytes "a")).redis.publicSet ∧
    ¬ PresenceExact .ziplist (bytes "b") (markedStore (bytes "b") (bytes "a")).redis.publicSet
      (markedStore (bytes "b") (bytes "a")) :=
  ⟨rfl, by rw [PresenceExact]; decide⟩

/-! ## Counted downloads -/

/-- The file has one share row, with `pv` downloads, and Redis has its mark with the same score
and a name, or knows nothing of it. -/
structure Downloadable (s : Store) (md5 filename : CString) (pv : Int) : Prop where
  row : ∃ r : ShareFile, s.tables.shareFileList.filter (·.isFile md5 filename) = [r] ∧ r.pv = pv
  cache : s.redis.Typed ∧ s.redis.publicSet.score (fileid md5 filename) = some pv ∧
      s.redis.named (fileid md5 filename) = true ∨
    s.redis.Lacks (fileid md5 filename)

/-- The download is reported and counted in both stores. -/
def DownloadCounted (enc : Encoding) (md5 filename : CString) (pv : Int) (s : Store) : Prop :=
  let counted := (pvShareFile enc md5 filename).run store s
  counted.1 = 0 ∧
    (∃ r : ShareFile, counted.2.tables.shareFileList.filter (·.isFile md5 filename) = [r] ∧
      r.pv = pv + 1) ∧
    counted.2.redis.publicSet.score (fileid md5 filename) = some (pv + 1) ∧
    counted.2.redis.nameHash (fileid md5 filename) = some filename

theorem Downloadable.typed {s : Store} {md5 filename : CString} {pv : Int}
    (h : Downloadable s md5 filename pv) : s.redis.Typed :=
  h.cache.elim And.left Redis.Lacks.typed

theorem find_of_filter_eq_singleton {rows : List ShareFile} {q : ShareFile → Bool} {r : ShareFile}
    (h : rows.filter q = [r]) : rows.find? q = some r := by
  rw [← List.head?_filter, h]
  rfl

/-- The UPDATE keeps the number of rows of the file. -/
theorem filter_setSharePv (t : Tables) (pv : Int) (md5 filename : CString) :
    (t.setSharePv pv md5 filename).shareFileList.filter (·.isFile md5 filename) =
      (t.shareFileList.filter (·.isFile md5 filename)).map fun r => { r with pv := pv } := by
  rw [Tables.setSharePv]
  induction t.shareFileList with
  | nil => rfl
  | cons r rest ih =>
    cases his : r.isFile md5 filename with
    | false => simpa [his] using ih
    | true =>
      have hnew : ShareFile.isFile md5 filename { r with pv := pv } = true := his
      simpa [his, hnew] using ih

/-- A download is reported as counted exactly when the presence test answers 0: a member found
is raised by a command whose reply the wrapper never takes for success. -/
theorem downloadCounted_iff (enc : Encoding) {md5 filename : CString} {pv : Int} {s : Store}
    (h : Downloadable s md5 filename pv) :
    DownloadCounted enc md5 filename pv s ↔ s.redis.presence (fileid md5 filename) enc = 0 := by
  obtain ⟨r, hfilter, rfl⟩ := h.row
  have hfind := find_of_filter_eq_singleton hfilter
  have hresult := result_pvShareFile enc md5 filename s
  have hrun := run_pvShareFile enc md5 filename s
  rw [hfind] at hrun
  constructor
  · rintro ⟨hret, -⟩
    rw [hresult] at hret
    by_contra hne
    rw [if_neg fun hand => hne hand.2] at hret
    cases hret
  · intro h0
    have hshared : s.tables.shared md5 filename = true :=
      List.any_eq_true.mpr ⟨r, List.mem_of_find?_eq_some hfind, List.find?_some hfind⟩
    rw [DownloadCounted, hrun, hresult, if_pos ⟨hshared, h0⟩]
    simp only [h0, if_true]
    rw [filter_setSharePv, hfilter, if_neg (by decide),
      Redis.publicSet_publish _ _ _ h.typed.zset, Redis.nameHash_publish _ _ _ h.typed.hash]
    exact ⟨trivial, ⟨_, rfl, rfl⟩, by simp, by simp⟩

theorem downloadCounted_flushed :
    DownloadCounted .ziplist (bytes "m") (bytes "f") 0
      { serveAll Store.empty fileOfUShared with redis := .empty } :=
  (downloadCounted_iff .ziplist
    ⟨⟨⟨bytes "u", bytes "m", bytes "t", bytes "f", 0⟩, by decide, rfl⟩,
      Or.inr ⟨⟨_, rfl, rfl⟩, ⟨_, rfl, rfl⟩⟩⟩).mpr (by decide)

/-- The first download after sharing is counted in both stores and reported as failed. -/
theorem not_downloadCounted_shared :
    Downloadable (serveAll Store.empty fileOfUShared) (bytes "m") (bytes "f") 0 ∧
    ¬ DownloadCounted .ziplist (bytes "m") (bytes "f") 0 (serveAll Store.empty fileOfUShared) := by
  refine ⟨⟨⟨⟨bytes "u", bytes "m", bytes "t", bytes "f", 0⟩, by decide, rfl⟩,
    Or.inl ⟨⟨rfl, rfl⟩, by decide, by decide⟩⟩, fun h => ?_⟩
  have hret := h.1
  revert hret
  decide

end HfDfs
