import Mathlib.Data.List.Basic
import HfDfs.Properties.JsonReading

/-!
# The parser and the ends of its arrays

Whatever the text is, taken or refused, the parser stays inside the array
that holds it and inside those it allocates, as long as every escape of the
text is complete and its length is an `int`. An escape cut short by the closing quote lets the second
pass over a string run past the quote at which the first one stopped.
-/

namespace HfDfs

set_option autoImplicit false

open Binary64 Reading JsonText

namespace CJson

/-- What is left of an array that has its NUL, every escape before it complete. -/
inductive Escaped : List UInt8 → Prop
  | nul {junk : List UInt8} : Escaped (0 :: junk)
  | plain {c : UInt8} {rest : List UInt8} : c ≠ 0 → c ≠ 0x5c → Escaped rest → Escaped (c :: rest)
  | short {c : UInt8} {rest : List UInt8} :
      c ≠ 0 → c ≠ 0x75 → Escaped rest → Escaped (0x5c :: c :: rest)
  | unit {t rest : List UInt8} {n : Nat} :
      CodeUnit t n → Escaped rest → Escaped (0x5c :: 0x75 :: (t ++ rest))

/-- At most `n` bytes are left. -/
structure Left (n : Nat) (rest : List UInt8) : Prop where
  escaped : Escaped rest
  length : rest.length ≤ n

section Leaves

variable {c : UInt8} {rest : List UInt8} {n : Nat}

theorem Escaped.exists_cons (h : Escaped rest) : ∃ c tail, rest = c :: tail := by
  cases h <;> exact ⟨_, _, rfl⟩

theorem Escaped.tail (h : Escaped (c :: rest)) (hzero : c ≠ 0) (hback : c ≠ 0x5c) :
    Escaped rest := by
  cases h with
  | nul => exact absurd rfl hzero
  | plain _ _ h => exact h
  | short _ _ _ => exact absurd rfl hback
  | unit _ _ => exact absurd rfl hback

theorem Escaped.dropWhile {p : UInt8 → Bool} (hp : ∀ c, p c = true → c ≠ 0 ∧ c ≠ 0x5c)
    (h : Escaped rest) : Escaped (rest.dropWhile p) := by
  induction rest with
  | nil => exact h
  | cons c rest ih =>
    rw [List.dropWhile_cons]
    split
    · rename_i hc
      exact ih (h.tail (hp c hc).1 (hp c hc).2)
    · exact h

theorem Left.dropWhile {p : UInt8 → Bool} (hp : ∀ c, p c = true → c ≠ 0 ∧ c ≠ 0x5c)
    (h : Left n rest) : Left n (rest.dropWhile p) :=
  ⟨h.escaped.dropWhile hp, (List.length_dropWhile_le p rest).trans h.length⟩

theorem Left.tail (h : Left (n + 1) (c :: rest)) (hzero : c ≠ 0) (hback : c ≠ 0x5c) :
    Left n rest :=
  ⟨h.escaped.tail hzero hback, Nat.le_of_succ_le_succ h.length⟩

theorem Left.mono {m : Nat} (h : Left n rest) (hle : n ≤ m) : Left m rest :=
  ⟨h.escaped, h.length.trans hle⟩

theorem holds_scan {α : Type} {f : List UInt8 → Option (α × List UInt8)}
    {Q : α → List UInt8 → Prop} {a : α} {rest' : List UInt8} (h : f rest = some (a, rest'))
    (hQ : Q a rest') : ((scan f).run rest).Holds Q := by
  rw [run_scan_of_some h]
  exact hQ

/-- A character that is passed over is one less. -/
theorem holds_accept (hzero : c ≠ 0) (hback : c ≠ 0x5c) (h : Left (n + 1) rest) :
    ((accept c).run rest).Holds fun b rest => if b then Left n rest else Left (n + 1) rest := by
  obtain ⟨d, tail, rfl⟩ := h.escaped.exists_cons
  by_cases hd : d = c
  · subst hd
    rw [run_accept]
    exact h.tail hzero hback
  · rw [run_accept_other hd]
    exact h

theorem Left.exists_succ (h : Left n rest) : ∃ m, n = m + 1 := by
  obtain ⟨c, tail, rfl⟩ := h.escaped.exists_cons
  exact ⟨n - 1, (Nat.succ_pred_eq_of_pos ((Nat.succ_pos _).trans_le h.length)).symm⟩

theorem holds_accept_le (hzero : c ≠ 0) (hback : c ≠ 0x5c) (h : Left n rest) :
    ((accept c).run rest).Holds fun _ rest => Left n rest := by
  obtain ⟨m, rfl⟩ := h.exists_succ
  refine (holds_accept hzero hback h).mono fun b rest hb => ?_
  cases b with
  | true => exact Left.mono hb (Nat.le_succ m)
  | false => exact hb

theorem skip_eq_dropWhile (h : Escaped rest) :
    skip rest = some ((), rest.dropWhile fun c => decide (c ≠ 0 ∧ c ≤ 32)) := by
  induction rest with
  | nil => cases h
  | cons c rest ih =>
    rw [skip, List.dropWhile_cons]
    split
    · rename_i hc
      have hback : c ≠ 0x5c := by
        rintro rfl
        exact absurd hc.2 (by decide)
      rw [if_pos (decide_eq_true hc)]
      exact ih (h.tail hc.1 hback)
    · rename_i hc
      rw [if_neg (by rwa [decide_eq_true_eq])]

theorem holds_skip (h : Left n rest) : ((scan skip).run rest).Holds fun _ rest => Left n rest := by
  refine holds_scan (skip_eq_dropWhile h.escaped) (h.dropWhile fun c hc => ?_)
  obtain ⟨hzero, hle⟩ := of_decide_eq_true hc
  refine ⟨hzero, ?_⟩
  rintro rfl
  exact absurd hle (by decide)

theorem keyword_cases {word : CString} (hword : ∀ w ∈ word, w ≠ 0 ∧ w ≠ 0x5c) (h : Escaped rest) :
    keyword word rest = some (false, rest) ∨
      ∃ rest', keyword word rest = some (true, rest') ∧ rest = word ++ rest' ∧ Escaped rest' := by
  induction word generalizing rest with
  | nil => exact Or.inr ⟨rest, by rw [keyword], rfl, h⟩
  | cons w word ih =>
    obtain ⟨c, tail, rfl⟩ := h.exists_cons
    obtain ⟨hzero, hback⟩ := hword w List.mem_cons_self
    rw [keyword]
    split
    · rename_i hc
      subst hc
      rcases ih (fun v hv => hword v (List.mem_cons_of_mem _ hv)) (h.tail hzero hback) with
        hno | ⟨rest', hyes, htail, hrest'⟩
      · exact Or.inl (by rw [hno]; rfl)
      · exact Or.inr ⟨rest', by rw [hyes]; rfl, by rw [htail]; rfl, hrest'⟩
    · exact Or.inl rfl

theorem holds_keyword {w : UInt8} {word : CString} (hword : ∀ v ∈ w :: word, v ≠ 0 ∧ v ≠ 0x5c)
    (h : Left (n + 1) rest) : ((scan (keyword (w :: word))).run rest).Holds fun b rest =>
      if b then Left n rest else Left (n + 1) rest := by
  rcases keyword_cases hword h.escaped with hno | ⟨rest', hyes, rfl, hrest'⟩
  · exact holds_scan hno h
  · refine holds_scan hyes ⟨hrest', ?_⟩
    have := h.length
    simp only [List.length_append, List.length_cons] at this
    omega

end Leaves

/-! ### Numbers -/

section Numbers

variable {c : UInt8} {rest : List UInt8} {n : Nat}

theorem plain_of_isdigit (h : isdigit c = true) : c ≠ 0 ∧ c ≠ 0x5c := by
  constructor
  · rintro rfl
    exact absurd h (by decide)
  · rintro rfl
    exact absurd h (by decide)

theorem readDouble_eq_dropWhile (h : Escaped rest) (x : Double) (count : Nat) :
    ∃ r, readDouble rest x count = some (r, rest.dropWhile isdigit) := by
  induction rest generalizing x count with
  | nil => cases h
  | cons c rest ih =>
    rw [readDouble, List.dropWhile_cons]
    split
    · rename_i hc
      exact ih (h.tail (plain_of_isdigit hc).1 (plain_of_isdigit hc).2) _ _
    · exact ⟨_, rfl⟩

theorem readSubscale_eq_dropWhile (h : Escaped rest) (subscale : Int) :
    ∃ r, readSubscale rest subscale = some (r, rest.dropWhile isdigit) := by
  induction rest generalizing subscale with
  | nil => cases h
  | cons c rest ih =>
    rw [readSubscale, List.dropWhile_cons]
    split
    · rename_i hc
      exact ih (h.tail (plain_of_isdigit hc).1 (plain_of_isdigit hc).2) _
    · exact ⟨_, rfl⟩

theorem holds_readSubscale (h : Left n rest) :
    ((scan (readSubscale · 0)).run rest).Holds fun _ rest => Left n rest := by
  obtain ⟨r, hr⟩ := readSubscale_eq_dropWhile h.escaped 0
  exact holds_scan (f := (readSubscale · 0)) hr (h.dropWhile fun c hc => plain_of_isdigit hc)

theorem holds_readFraction (h : Left n rest) (x : Double) :
    ((scan (readFraction x)).run rest).Holds fun _ rest => Left n rest := by
  obtain ⟨c, tail, rfl⟩ := h.escaped.exists_cons
  by_cases hc : c = 0x2e
  · subst hc
    have htail : Escaped tail := h.escaped.tail (by decide) (by decide)
    obtain ⟨d, more, rfl⟩ := htail.exists_cons
    by_cases hd : isdigit d = true
    · obtain ⟨r, hr⟩ := readDouble_eq_dropWhile htail x 0
      have hleft : Left n (d :: more) :=
        ⟨htail, (Nat.le_succ _).trans h.length⟩
      refine holds_scan (a := r) ?_ (hleft.dropWhile fun c hc => plain_of_isdigit hc)
      rw [readFraction, if_pos rfl]
      simp only [List.head?_cons, hd, if_true]
      exact hr
    · refine holds_scan (a := (x, 0)) ?_ h
      rw [readFraction, if_pos rfl]
      simp only [List.head?_cons, hd]
      rfl
  · exact holds_scan (a := (x, 0)) (by rw [readFraction, if_neg hc]) h

theorem holds_readExponent (h : Left n rest) :
    (readExponent.run rest).Holds fun _ rest => Left n rest := by
  obtain ⟨c, tail, rfl⟩ := h.escaped.exists_cons
  rw [readExponent, run_bind_of_read run_peek]
  split
  · rename_i hc
    have htail : Left n tail := by
      refine ⟨?_, (Nat.le_succ _).trans h.length⟩
      rcases hc with rfl | rfl <;> exact h.escaped.tail (by decide) (by decide)
    obtain ⟨s, more, rfl⟩ := htail.escaped.exists_cons
    rw [run_bind_of_read run_advance, run_bind_of_read run_peek]
    have hmore : s = 0x2b ∨ s = 0x2d → Left n more := by
      intro hs
      refine ⟨?_, (Nat.le_succ _).trans htail.length⟩
      rcases hs with rfl | rfl <;> exact htail.escaped.tail (by decide) (by decide)
    split
    · rename_i hs
      rw [run_bind_of_read run_advance]
      exact holds_readSubscale (hmore (Or.inl hs))
    · split
      · rename_i hs
        rw [run_bind_of_read run_advance]
        exact (holds_readSubscale (hmore (Or.inr hs))).bind fun _ _ h => h
      · exact holds_readSubscale htail
  · exact h

/-- The fraction and the exponent. -/
theorem holds_scaled (h : Left n rest) (sign x : Double) :
    ((do
      let (n, places) ← scan (readFraction x)
      let exponent ← readExponent
      return (sign.mul n).mul (.powTen (exponent - places)) : Reader UInt8 Double).run rest).Holds
        fun _ rest => Left n rest :=
  (holds_readFraction h x).bind fun _ _ h => (holds_readExponent h).bind fun _ _ h => h

/-- The digits before the point, of which there is one if the first character is. -/
theorem holds_digits (h : Escaped (c :: rest)) (sign : Double)
    (hn : (if 0x31 ≤ c ∧ c ≤ 0x39 then rest else c :: rest).length ≤ n) :
    ((do
      let c ← peek
      let x ←
        if 0x31 ≤ c ∧ c ≤ 0x39 then Prod.fst <$> scan (readDouble · (.ofInt 0) 0)
        else pure (.ofInt 0)
      let (n, places) ← scan (readFraction x)
      let exponent ← readExponent
      return (sign.mul n).mul (.powTen (exponent - places)) : Reader UInt8 Double).run
        (c :: rest)).Holds fun _ rest => Left n rest := by
  rw [run_bind_of_read run_peek]
  split
  · rename_i hc
    rw [if_pos hc] at hn
    have hdigit : isdigit c = true := isdigit_iff.mpr ⟨le_trans (by decide) hc.1, hc.2⟩
    obtain ⟨r, hr⟩ := readDouble_eq_dropWhile h (.ofInt 0) 0
    rw [List.dropWhile_cons, if_pos hdigit] at hr
    have hrest : Left n rest := ⟨h.tail (plain_of_isdigit hdigit).1 (plain_of_isdigit hdigit).2, hn⟩
    have hmap := run_map_of_read (g := Prod.fst)
      (run_scan_of_some (g := (readDouble · (.ofInt 0) 0)) hr)
    rw [run_bind_of_read hmap]
    exact holds_scaled (hrest.dropWhile fun c hc => plain_of_isdigit hc) sign _
  · rename_i hc
    rw [if_neg hc] at hn
    rw [run_bind_of_read run_pure]
    exact holds_scaled ⟨h, hn⟩ sign _

theorem holds_parseUnsigned (h : Left n rest) (sign : Double) :
    ((parseUnsigned sign).run rest).Holds fun _ rest => Left n rest := by
  refine (holds_accept_le (c := 0x30) (by decide) (by decide) h).bind fun _ rest hrest => ?_
  obtain ⟨d, more, rfl⟩ := hrest.escaped.exists_cons
  refine holds_digits hrest.escaped sign ?_
  split
  · exact (Nat.le_succ _).trans hrest.length
  · exact hrest.length

/-- A number is at least one character long. -/
theorem holds_parseUnsigned_digit (h : Left (n + 1) (c :: rest)) (hc : isdigit c = true)
    (sign : Double) :
    ((parseUnsigned sign).run (c :: rest)).Holds fun _ rest => Left n rest := by
  by_cases hzero : c = 0x30
  · subst hzero
    have hrest : Left n rest := h.tail (by decide) (by decide)
    rw [parseUnsigned, run_bind_of_read run_accept]
    obtain ⟨d, more, rfl⟩ := hrest.escaped.exists_cons
    refine holds_digits hrest.escaped sign ?_
    split
    · exact (Nat.le_succ _).trans hrest.length
    · exact hrest.length
  · have hrange : 0x31 ≤ c ∧ c ≤ 0x39 := by
      obtain ⟨hlow, hhigh⟩ := isdigit_iff.mp hc
      refine ⟨UInt8.not_lt.mp fun hlt => hzero (UInt8.toNat_inj.mp ?_), hhigh⟩
      have hlow : 0x30 ≤ c.toNat := UInt8.le_iff_toNat_le.mp hlow
      have hlt : c.toNat < 0x31 := UInt8.lt_iff_toNat_lt.mp hlt
      change c.toNat = 0x30
      omega
    rw [parseUnsigned, run_bind_of_read (run_accept_other hzero)]
    refine holds_digits h.escaped sign ?_
    rw [if_pos hrange]
    exact Nat.le_of_succ_le_succ h.length

theorem holds_parseNumber (h : Left (n + 1) (c :: rest)) (hc : c = 0x2d ∨ isdigit c = true) :
    (parseNumber.run (c :: rest)).Holds fun _ rest => Left n rest := by
  by_cases hsign : c = 0x2d
  · subst hsign
    rw [parseNumber, run_bind_of_read run_accept, if_pos rfl]
    exact holds_parseUnsigned (h.tail (by decide) (by decide)) _
  · rw [parseNumber, run_bind_of_read (run_accept_other hsign), if_neg Bool.false_ne_true]
    exact holds_parseUnsigned_digit h (hc.resolve_left hsign) _

end Numbers

/-! ### Strings -/

section Strings

variable {c : UInt8} {out rest : List UInt8} {n len : Nat}

theorem length_utf8_le (uc : Nat) : (utf8 uc).length ≤ 4 := by
  simp only [utf8]
  split
  · simp
  · split
    · simp
    · split <;> simp

/-- Both passes over a string meet the same letters: when the bytes written so far and those the
first pass counts ahead fit, the second pass ends inside the array too. -/
def Passes (rest : List UInt8) : Prop :=
  ∃ len, stringLen rest = some len ∧ ∀ size out, out.length + len ≤ size →
    ∃ s rest', unescape size rest out = some (s, rest') ∧ Escaped rest' ∧
      rest'.length ≤ rest.length

theorem Passes.step {t : List UInt8} {k : Nat} (h : Passes rest)
    (hcount : stringLen (t ++ rest) = (stringLen rest).map (· + k))
    (hwrite : ∀ size out, out.length + k ≤ size → ∃ more, more.length ≤ k ∧
      unescape size (t ++ rest) out = unescape size rest (out ++ more)) :
    Passes (t ++ rest) := by
  obtain ⟨len, hlen, hpass⟩ := h
  refine ⟨len + k, by rw [hcount, hlen]; rfl, fun size out hsize => ?_⟩
  obtain ⟨more, hmore, hstep⟩ := hwrite size out (by omega)
  obtain ⟨s, rest', hrun, hrest', hle⟩ :=
    hpass size (out ++ more) (by rw [List.length_append]; omega)
  exact ⟨s, rest', hstep.trans hrun, hrest', by rw [List.length_append]; omega⟩

theorem passes_stop (h : Escaped (c :: rest)) (hc : c = 0x22 ∨ c = 0) : Passes (c :: rest) := by
  refine ⟨0, by rw [stringLen.eq_def]; simp only [hc, if_true], fun size out _ => ?_⟩
  exact ⟨out, c :: rest, by rw [unescape.eq_def]; simp only [hc, if_true], h, le_rfl⟩

theorem passes_plain (h : Passes rest) (hquote : c ≠ 0x22) (hzero : c ≠ 0) (hback : c ≠ 0x5c) :
    Passes (c :: rest) := by
  refine h.step (t := [c]) (k := 1) ?_ fun size out hsize => ⟨[c], le_rfl, ?_⟩
  · have hplain : ∀ d ∈ [c], d ≠ 0x22 ∧ d ≠ 0 ∧ d ≠ 0x5c := by simp [hquote, hzero, hback]
    exact stringLen_plain hplain
  · rw [List.singleton_append, unescape_plain hquote hzero hback,
      put_of_le (by simpa using hsize), Option.bind_some]

theorem passes_short (h : Passes rest) (hunit : c ≠ 0x75) : Passes (0x5c :: c :: rest) := by
  refine h.step (t := [0x5c, c]) (k := 1) stringLen_escape fun size out hsize =>
    ⟨[unescaped c], le_rfl, ?_⟩
  rw [List.cons_append, List.singleton_append, unescape_short hunit,
    put_of_le (by simpa using hsize), Option.bind_some]

theorem stringLen_unit {t : List UInt8} {u : Nat} (ht : CodeUnit t u) :
    stringLen (0x5c :: 0x75 :: (t ++ rest)) = (stringLen rest).map (· + 5) := by
  obtain ⟨a, b, c, d, rfl, hds⟩ := codeUnit_cases ht
  rw [stringLen_escape, stringLen_plain hds, Option.map_map]
  rfl

/-- A code unit that is no high surrogate stands for a character or for nothing. -/
theorem passes_unit {t : List UInt8} {u : Nat} (h : Passes rest) (ht : CodeUnit t u)
    (hu : ¬ (0xd800 ≤ u ∧ u ≤ 0xdbff)) : Passes (0x5c :: 0x75 :: (t ++ rest)) := by
  refine h.step (t := 0x5c :: 0x75 :: t) (k := 5) (stringLen_unit ht) fun size out hsize => ?_
  obtain ⟨a, b, c, d, rfl, -⟩ := codeUnit_cases ht
  by_cases hinvalid : (0xdc00 ≤ u ∧ u ≤ 0xdfff) ∨ u = 0
  · refine ⟨[], Nat.zero_le _, ?_⟩
    change unescape size (0x5c :: 0x75 :: a :: b :: c :: d :: rest) out = _
    rw [unescape, if_neg (by decide), if_neg (by decide)]
    simp only [parseHex4_codeUnit ht]
    rw [if_pos hinvalid, List.append_nil]
  · have hlen := length_utf8_le u
    refine ⟨utf8 u, by omega, ?_⟩
    change unescape size (0x5c :: 0x75 :: a :: b :: c :: d :: rest) out = _
    rw [unescape_unit ht (by omega) (by omega),
      put_of_le (by rw [List.length_append]; omega), Option.bind_some]

/-- A high surrogate with no code unit behind it stands for nothing. -/
theorem passes_lone {t : List UInt8} {u : Nat} (h : Passes rest) (hrest : Escaped rest)
    (ht : CodeUnit t u) (hu : 0xd800 ≤ u ∧ u ≤ 0xdbff)
    (hlone : ∀ more, rest ≠ 0x5c :: 0x75 :: more) : Passes (0x5c :: 0x75 :: (t ++ rest)) := by
  refine h.step (t := 0x5c :: 0x75 :: t) (k := 5) (stringLen_unit ht) fun size out hsize =>
    ⟨[], Nat.zero_le _, ?_⟩
  obtain ⟨a, b, c, d, rfl, -⟩ := codeUnit_cases ht
  change unescape size (0x5c :: 0x75 :: a :: b :: c :: d :: rest) out = _
  rw [unescape, if_neg (by decide), if_neg (by decide)]
  simp only [parseHex4_codeUnit ht]
  rw [if_neg (by omega), if_pos hu, List.append_nil]
  split
  · exact absurd rfl (hlone _)
  · exact absurd rfl (hlone _)
  · cases hrest with
    | plain _ hback _ => exact absurd rfl hback
  · rfl

theorem passes_pair {t t' : List UInt8} {u u' : Nat} (h : Passes rest) (ht : CodeUnit t u)
    (hu : 0xd800 ≤ u ∧ u ≤ 0xdbff) (ht' : CodeUnit t' u') :
    Passes (0x5c :: 0x75 :: (t ++ 0x5c :: 0x75 :: (t' ++ rest))) := by
  have hassoc : 0x5c :: 0x75 :: (t ++ 0x5c :: 0x75 :: (t' ++ rest)) =
      0x5c :: 0x75 :: (t ++ 0x5c :: 0x75 :: t') ++ rest := by simp
  have hcount : stringLen (0x5c :: 0x75 :: (t ++ 0x5c :: 0x75 :: t') ++ rest) =
      (stringLen rest).map (· + 10) := by
    rw [← hassoc, stringLen_unit ht, stringLen_unit ht', Option.map_map]
    rfl
  rw [hassoc]
  refine h.step hcount fun size out hsize => ?_
  obtain ⟨a, b, c, d, rfl, -⟩ := codeUnit_cases ht
  obtain ⟨a', b', c', d', rfl, -⟩ := codeUnit_cases ht'
  change ∃ more : List UInt8, more.length ≤ 10 ∧ unescape size
    (0x5c :: 0x75 :: a :: b :: c :: d :: 0x5c :: 0x75 :: a' :: b' :: c' :: d' :: rest) out = _
  rw [unescape, if_neg (by decide), if_neg (by decide)]
  simp only [parseHex4_codeUnit ht, parseHex4_codeUnit ht']
  rw [if_neg (by omega), if_pos hu]
  split
  · exact ⟨[], Nat.zero_le _, by rw [List.append_nil]⟩
  · have hlen := length_utf8_le (0x10000 + ((u &&& 0x3ff) <<< 10 ||| (u' &&& 0x3ff)))
    refine ⟨_, hlen.trans (by decide), ?_⟩
    rw [put_of_le (by rw [List.length_append]; omega)]
    rfl

theorem passes_of_escaped (h : Escaped rest) : Passes rest := by
  -- on the length: a pair of surrogates is two units at once
  induction hn : rest.length using Nat.strongRecOn generalizing rest with
  | ind n ih =>
    subst hn
    cases h with
    | nul => exact passes_stop .nul (Or.inr rfl)
    | @plain c rest hzero hback h =>
      by_cases hquote : c = 0x22
      · exact passes_stop (.plain hzero hback h) (Or.inl hquote)
      · exact passes_plain (ih _ (Nat.lt_succ_self _) h rfl) hquote hzero hback
    | @short c rest _ hunit h =>
      exact passes_short (ih _ (by simp only [List.length_cons]; omega) h rfl) hunit
    | @unit t rest u ht h =>
      have hrest : rest.length < (0x5c :: 0x75 :: (t ++ rest)).length := by
        simp only [List.length_cons, List.length_append]
        omega
      by_cases hu : 0xd800 ≤ u ∧ u ≤ 0xdbff
      · by_cases hlone : ∀ more, rest ≠ 0x5c :: 0x75 :: more
        · exact passes_lone (ih _ hrest h rfl) h ht hu hlone
        · cases h with
          | nul => exact absurd (fun _ => by simp) hlone
          | plain _ hback _ => exact absurd (fun _ heq => hback (List.cons.inj heq).1) hlone
          | short _ hne _ =>
            exact absurd (fun _ heq => hne (List.cons.inj (List.cons.inj heq).2).1) hlone
          | @unit t' rest' u' ht' h' =>
            refine passes_pair (ih _ ?_ h' rfl) ht hu ht'
            simp only [List.length_cons, List.length_append]
            omega
      · exact passes_unit (ih _ hrest h rfl) ht hu

theorem lt_of_stringLen (h : stringLen rest = some len) : len < rest.length := by
  induction rest using stringLen.induct generalizing len with
  | case1 => cases h
  | case2 c rest hend =>
    rw [stringLen.eq_def] at h
    simp only [hend, if_true, Option.some_inj] at h
    exact h ▸ Nat.succ_pos _
  | case3 hend =>
    rw [stringLen.eq_def] at h
    cases h
  | case4 hend d rest ih =>
    rw [stringLen_escape] at h
    obtain ⟨k, hk, rfl⟩ := Option.map_eq_some_iff.mp h
    have := ih hk
    simp only [List.length_cons]
    omega
  | case5 c rest hend hback ih =>
    rw [stringLen.eq_def] at h
    simp only [hend, hback, if_false] at h
    obtain ⟨k, hk, rfl⟩ := Option.map_eq_some_iff.mp h
    exact Nat.succ_lt_succ (ih hk)

theorem holds_parseString (h : Left (n + 1) rest) (hint : n + 1 < 2 ^ 31) :
    (parseString.run rest).Holds fun _ rest => Left n rest := by
  obtain ⟨c, tail, rfl⟩ := h.escaped.exists_cons
  rw [parseString, run_bind_of_read run_peek]
  split
  · trivial
  · rename_i hc
    rw [ne_eq, not_not] at hc
    subst hc
    have htail : Left n tail := h.tail (by decide) (by decide)
    obtain ⟨len, hlen, hpass⟩ := passes_of_escaped htail.escaped
    obtain ⟨s, rest', hrun, hrest', hle⟩ := hpass len [] (Nat.zero_add len).le
    have hcount : len + 1 < 2 ^ 31 := by
      have := lt_of_stringLen hlen
      have := htail.length
      omega
    rw [run_bind_of_read run_advance,
      run_bind_of_read (run_ahead_of_some (stringSize_of_lt hlen hcount)),
      run_bind_of_read (run_scan_of_some (g := (unescape len · [])) hrun)]
    have hleft : Left n rest' := ⟨hrest', hle.trans htail.length⟩
    exact (holds_accept_le (c := 0x22) (by decide) (by decide) hleft).bind fun _ _ h => h

end Strings

/-! ### Values -/

/-- With enough fuel nothing undefined happens, and a value is at least one character long. -/
structure Inside (fuel : Nat) : Prop where
  value : ∀ {n : Nat} {rest : List UInt8}, Left (n + 1) rest → 3 * n + 3 ≤ fuel →
    ((parseValue fuel).run rest).Holds fun _ rest => Left n rest
  array : ∀ {n : Nat} {rest : List UInt8}, Left (n + 1) (0x5b :: rest) → 3 * n + 2 ≤ fuel →
    ((parseArray fuel).run (0x5b :: rest)).Holds fun _ rest => Left n rest
  elements : ∀ {n : Nat} {rest : List UInt8}, Left n rest → 3 * n + 1 ≤ fuel →
    ((parseElements fuel).run rest).Holds fun _ rest => Left n rest
  object : ∀ {n : Nat} {rest : List UInt8}, Left (n + 1) (0x7b :: rest) → 3 * n + 2 ≤ fuel →
    ((parseObject fuel).run (0x7b :: rest)).Holds fun _ rest => Left n rest
  members : ∀ {n : Nat} {rest : List UInt8}, Left n rest → 3 * n + 1 ≤ fuel →
    ((parseMembers fuel).run rest).Holds fun _ rest => Left n rest

section Values

variable {rest : List UInt8} {fuel n : Nat}

theorem holds_map {α β : Type} {r : Reader UInt8 α} {f : α → β} {Q : List UInt8 → Prop}
    (h : (r.run rest).Holds fun _ rest => Q rest) : ((f <$> r).run rest).Holds fun _ rest => Q rest :=
  h.bind fun _ _ h => h

/-- What stands behind the last of several items: the closing bracket or a failure. -/
theorem holds_close {α : Type} {c : UInt8} {a : α} (hzero : c ≠ 0) (hback : c ≠ 0x5c)
    (h : Left n rest) :
    ((do
      if ← accept c then return a
      fail : Reader UInt8 α).run rest).Holds fun _ rest => Left n rest := by
  refine (holds_accept_le hzero hback h).bind fun b rest hrest => ?_
  cases b with
  | true => exact hrest
  | false => trivial

/-- What stands behind an item: a comma and more items, or nothing. -/
theorem holds_comma {α : Type} {more : Reader UInt8 α} {f : α → α} {a : α} (h : Left n rest)
    (hmore : ∀ {m : Nat} {rest : List UInt8}, Left m rest → m < n →
      (more.run rest).Holds fun _ rest => Left m rest) :
    ((do
      if ← accept 0x2c then return f (← more)
      return a : Reader UInt8 α).run rest).Holds fun _ rest => Left n rest := by
  obtain ⟨m, rfl⟩ := h.exists_succ
  refine (holds_accept (by decide) (by decide) h).bind fun b rest hb => ?_
  cases b with
  | true => exact (hmore hb (Nat.lt_succ_self m)).bind fun _ _ h => h.mono (Nat.le_succ m)
  | false => exact hb

theorem holds_parseValue_succ (ih : Inside fuel) (h : Left (n + 1) rest) (hfuel : 3 * n + 2 ≤ fuel)
    (hint : fuel + 1 < 3 * 2 ^ 31) :
    ((parseValue (fuel + 1)).run rest).Holds fun _ rest => Left n rest := by
  have hword : ∀ (w : UInt8) (word : CString) {item : Item} {next : Reader UInt8 Item} {rest},
      ((w :: word).all fun v => v ≠ 0 && v ≠ 0x5c) = true → Left (n + 1) rest →
      (∀ {rest}, Left (n + 1) rest → (next.run rest).Holds fun _ rest => Left n rest) →
      ((do
        if ← scan (keyword (w :: word)) then return item
        next : Reader UInt8 Item).run rest).Holds fun _ rest => Left n rest := by
    intro w word item next rest hall hrest hnext
    have hplain : ∀ v ∈ w :: word, v ≠ 0 ∧ v ≠ 0x5c := by simpa [List.all_eq_true] using hall
    refine (holds_keyword hplain hrest).bind fun b rest hb => ?_
    cases b with
    | true => exact hb
    | false => exact hnext hb
  rw [parseValue]
  refine hword 0x6e (bytes "ull") (by decide) h fun h => ?_
  refine hword 0x66 (bytes "alse") (by decide) h fun h => ?_
  refine hword 0x74 (bytes "rue") (by decide) h fun {rest} h => ?_
  obtain ⟨c, tail, rfl⟩ := h.escaped.exists_cons
  rw [run_bind_of_read run_peek]
  split
  · exact holds_map (holds_parseString h (by omega))
  · split
    · exact holds_map (holds_parseNumber h ‹_›)
    · split
      · rename_i hc
        subst hc
        exact holds_map (ih.array h hfuel)
      · split
        · rename_i hc
          subst hc
          exact holds_map (ih.object h hfuel)
        · trivial

theorem holds_parseArray_succ (ih : Inside fuel) (h : Left (n + 1) (0x5b :: rest))
    (hfuel : 3 * n + 1 ≤ fuel) :
    ((parseArray (fuel + 1)).run (0x5b :: rest)).Holds fun _ rest => Left n rest := by
  rw [parseArray, run_bind_of_read run_advance]
  refine (holds_skip (h.tail (by decide) (by decide))).bind fun _ rest h => ?_
  refine (holds_accept_le (by decide) (by decide) h).bind fun b rest h => ?_
  cases b with
  | true => exact h
  | false =>
    exact (ih.elements h hfuel).bind fun _ _ h => holds_close (by decide) (by decide) h

theorem holds_parseElements_succ (ih : Inside fuel) (h : Left n rest) (hfuel : 3 * n ≤ fuel) :
    ((parseElements (fuel + 1)).run rest).Holds fun _ rest => Left n rest := by
  obtain ⟨n, rfl⟩ := h.exists_succ
  rw [parseElements]
  refine (holds_skip h).bind fun _ rest h => ?_
  refine (ih.value h hfuel).bind fun item rest h => ?_
  refine (holds_skip h).bind fun _ rest h => ?_
  exact (holds_comma (f := (item :: ·)) h fun h hlt => ih.elements h (by omega)).mono
    fun _ _ h => h.mono (Nat.le_succ n)

theorem holds_parseObject_succ (ih : Inside fuel) (h : Left (n + 1) (0x7b :: rest))
    (hfuel : 3 * n + 1 ≤ fuel) :
    ((parseObject (fuel + 1)).run (0x7b :: rest)).Holds fun _ rest => Left n rest := by
  rw [parseObject, run_bind_of_read run_advance]
  refine (holds_skip (h.tail (by decide) (by decide))).bind fun _ rest h => ?_
  refine (holds_accept_le (by decide) (by decide) h).bind fun b rest h => ?_
  cases b with
  | true => exact h
  | false =>
    exact (ih.members h hfuel).bind fun _ _ h => holds_close (by decide) (by decide) h

theorem holds_parseMembers_succ (ih : Inside fuel) (h : Left n rest) (hfuel : 3 * n ≤ fuel)
    (hint : fuel + 1 < 3 * 2 ^ 31) :
    ((parseMembers (fuel + 1)).run rest).Holds fun _ rest => Left n rest := by
  obtain ⟨n, rfl⟩ := h.exists_succ
  rw [parseMembers]
  refine (holds_skip h).bind fun _ rest h => ?_
  refine (holds_parseString h (by omega)).bind fun string rest h => ?_
  refine (holds_skip h).bind fun _ rest h => ?_
  obtain ⟨n, rfl⟩ := h.exists_succ
  refine (holds_accept (by decide) (by decide) h).bind fun b rest hb => ?_
  cases b with
  | false => trivial
  | true =>
    refine (holds_skip (n := n) hb).bind fun _ rest h => ?_
    obtain ⟨n, rfl⟩ := h.exists_succ
    refine (ih.value h (by omega)).bind fun item rest h => ?_
    refine (holds_skip h).bind fun _ rest h => ?_
    exact (holds_comma (f := ((string, item) :: ·)) h fun h hlt => ih.members h (by omega)).mono
      fun _ _ h => h.mono (by omega)

theorem inside {fuel : Nat} (hint : fuel < 3 * 2 ^ 31) : Inside fuel := by
  induction fuel with
  | zero =>
    exact ⟨fun _ h => by omega, fun _ h => by omega, fun _ h => by omega, fun _ h => by omega,
      fun _ h => by omega⟩
  | succ fuel ih =>
    have ih := ih (by omega)
    exact ⟨fun h hfuel => holds_parseValue_succ ih h (by omega) hint,
      fun h hfuel => holds_parseArray_succ ih h (by omega),
      fun h hfuel => holds_parseElements_succ ih h (by omega),
      fun h hfuel => holds_parseObject_succ ih h (by omega),
      fun h hfuel => holds_parseMembers_succ ih h (by omega) hint⟩

/-- A text with complete escapes is taken or refused, and the parser ends before its NUL or at
it: nothing is read behind the text, and no string is longer than the array allocated for it. -/
theorem parseWithOpts_inside (requireNullTerminated : Bool) {value : List UInt8}
    (h : Escaped value) (hint : value.length < 2 ^ 31) :
    ((parseWithOpts requireNullTerminated).run value).Holds fun _ rest =>
      Escaped rest ∧ rest.length < value.length := by
  obtain ⟨n, hn⟩ := (Left.mk h le_rfl).exists_succ
  have hleft : Left (n + 1) value := ⟨h, hn.le⟩
  rw [hn, parseWithOpts]
  refine (holds_skip hleft).bind fun _ rest hrest => ?_
  obtain ⟨m, hm⟩ := (Left.mk hrest.escaped le_rfl).exists_succ
  have hle := hrest.length
  rw [run_bind_of_read (run_ahead_of_some (g := fun value => some (3 * value.length)) rfl)]
  refine ((inside (by omega)).value (Left.mk hrest.escaped hm.le) (by omega)).bind fun item rest hrest => ?_
  have hend : Left n rest := hrest.mono (by omega)
  split
  · refine (holds_skip hend).bind fun _ rest hend => ?_
    obtain ⟨c, tail, rfl⟩ := hend.escaped.exists_cons
    rw [run_bind_of_read run_peek]
    split
    · exact ⟨hend.escaped, Nat.lt_succ_of_le hend.length⟩
    · trivial
  · exact ⟨hend.escaped, Nat.lt_succ_of_le hend.length⟩

/-- A string that does not end. -/
theorem parse_unterminated :
    (parse.run [0x5b, 0x22, 0x5c, 0x6e, 0x61, 0]).Holds fun _ rest => Escaped rest ∧ rest.length < 6 := by
  have hescaped : Escaped [0x5b, 0x22, 0x5c, 0x6e, 0x61, 0] :=
    .plain (by decide) (by decide) (.plain (by decide) (by decide)
      (.short (by decide) (by decide) (.plain (by decide) (by decide) .nul)))
  exact parseWithOpts_inside false hescaped (by decide)

end Values

/-! ### An escape that is cut short -/

section Cut

variable {digits swallowed letters out rest : List UInt8} {len : Nat}

/-- Letters are copied as long as there is room. -/
theorem unescape_plains (hletters : ∀ c ∈ letters, c ≠ 0x22 ∧ c ≠ 0 ∧ c ≠ 0x5c)
    (hout : out.length ≤ len) :
    unescape len (letters ++ rest) out =
      if (out ++ letters).length ≤ len then unescape len rest (out ++ letters) else none := by
  induction letters generalizing out with
  | nil => rw [List.nil_append, List.append_nil, if_pos hout]
  | cons c letters ih =>
    obtain ⟨hquote, hzero, hback⟩ := hletters c List.mem_cons_self
    rw [List.cons_append, unescape_plain hquote hzero hback, put]
    split
    · rename_i hfits
      rw [Option.bind_some, ih (fun d hd => hletters d (List.mem_cons_of_mem _ hd)) hfits,
        List.append_assoc, List.singleton_append]
    · rename_i hfull
      rw [Option.bind_none, if_neg]
      simp only [List.length_append, List.length_cons, List.length_nil] at hfull ⊢
      omega

theorem plain_of_hexDigit {c : UInt8} (h : (hexDigit c).isSome) :
    c ≠ 0x22 ∧ c ≠ 0 ∧ c ≠ 0x5c := by
  refine ⟨?_, ?_, ?_⟩ <;> rintro rfl <;> exact absurd h (by decide)

theorem parseHex4_quote {a b c d : UInt8} (h : 0x22 ∈ [a, b, c, d]) : parseHex4 a b c d = 0 := by
  have hnone : hexDigit 0x22 = none := by decide
  rw [parseHex4]
  split
  · rename_i ha hb hc hd
    simp only [List.mem_cons, List.not_mem_nil, or_false] at h
    rcases h with rfl | rfl | rfl | rfl
    · exact absurd (hnone.symm.trans ha) (by simp)
    · exact absurd (hnone.symm.trans hb) (by simp)
    · exact absurd (hnone.symm.trans hc) (by simp)
    · exact absurd (hnone.symm.trans hd) (by simp)
  · rfl

theorem unescape_cut (hcut : digits.length + 1 + swallowed.length = 4) :
    unescape len (0x5c :: 0x75 :: (digits ++ 0x22 :: (swallowed ++ rest))) out =
      unescape len rest out := by
  have hassoc : digits ++ 0x22 :: (swallowed ++ rest) = digits ++ 0x22 :: swallowed ++ rest := by
    simp
  have hmem : 0x22 ∈ digits ++ 0x22 :: swallowed := by simp
  have hlength : (digits ++ 0x22 :: swallowed).length = 4 := by
    rw [List.length_append, List.length_cons]
    omega
  rw [hassoc]
  generalize digits ++ 0x22 :: swallowed = four at hmem hlength
  obtain ⟨a, b, c, d, rfl⟩ : ∃ a b c d, four = [a, b, c, d] := List.length_eq_four.mp hlength
  change unescape len (0x5c :: 0x75 :: a :: b :: c :: d :: rest) out = _
  rw [unescape, if_neg (by decide), if_neg (by decide)]
  simp only [parseHex4_quote hmem]
  rw [if_pos (Or.inr trivial)]

/-- The four characters of an escape may include the quote at which the first pass ends the
string. The second pass goes on behind it, and what it copies up to the next quote is written
behind the array as soon as it is longer than the escape was. -/
theorem parseString_cut {front : List UInt8} (hfront : ∀ c ∈ front, c ≠ 0x22 ∧ c ≠ 0 ∧ c ≠ 0x5c)
    (hdigits : ∀ c ∈ digits, (hexDigit c).isSome) (hcut : digits.length + 1 + swallowed.length = 4)
    (hletters : ∀ c ∈ letters, c ≠ 0x22 ∧ c ≠ 0 ∧ c ≠ 0x5c) (hint : front.length + 5 < 2 ^ 31) :
    parseString.run (0x22 :: (front ++ 0x5c :: 0x75 :: (digits ++ 0x22 ::
        (swallowed ++ (letters ++ 0x22 :: rest))))) =
      if letters.length ≤ digits.length + 1 then .read (front ++ letters) rest else .undefined := by
  have hcount : stringLen (front ++ 0x5c :: 0x75 :: (digits ++ 0x22 ::
      (swallowed ++ (letters ++ 0x22 :: rest)))) = some (digits.length + 1 + front.length) := by
    rw [stringLen_plain hfront, stringLen_escape,
      stringLen_plain fun c hc => plain_of_hexDigit (hdigits c hc), stringLen.eq_def]
    simp
  have hscan : unescape (digits.length + 1 + front.length) (front ++ 0x5c :: 0x75 ::
      (digits ++ 0x22 :: (swallowed ++ (letters ++ 0x22 :: rest)))) [] =
      if letters.length ≤ digits.length + 1 then some (front ++ letters, 0x22 :: rest) else none := by
    rw [unescape_plains hfront (Nat.zero_le _), List.nil_append, if_pos (by omega),
      unescape_cut hcut, unescape_plains hletters (by omega), List.length_append]
    have hiff : front.length + letters.length ≤ digits.length + 1 + front.length ↔
        letters.length ≤ digits.length + 1 := by omega
    simp only [hiff]
    rw [unescape.eq_def]
    simp
  have hvalue : (front ++ letters).takeWhile (· ≠ 0) = front ++ letters := by
    refine List.takeWhile_eq_self_iff.mpr fun c hc => decide_eq_true ?_
    rcases List.mem_append.mp hc with hc | hc
    · exact (hfront c hc).2.1
    · exact (hletters c hc).2.1
  rw [parseString, run_bind_of_read run_peek, if_neg (by decide), run_bind_of_read run_advance,
    run_bind_of_read (run_ahead_of_some (stringSize_of_lt hcount (by omega)))]
  split
  · rename_i hle
    rw [if_pos hle] at hscan
    rw [run_bind_of_read (run_scan_of_some (g := (unescape _ · [])) hscan),
      run_bind_of_read run_accept, run_pure, hvalue]
  · rename_i hlong
    rw [if_neg hlong] at hscan
    exact run_bind_of_undefined (run_scan_of_none (g := (unescape _ · [])) hscan)

/-- `"\u"ccc` and two letters before the next quote, for which the array is too small. -/
theorem parseString_cut_overflow :
    parseString.run [0x22, 0x5c, 0x75, 0x22, 0x2c, 0x61, 0x62, 0x63, 0x64, 0x22, 0] = .undefined := by
  have hletters : ∀ c ∈ [0x63, 0x64], c ≠ (0x22 : UInt8) ∧ c ≠ 0 ∧ c ≠ 0x5c :=
    List.forall_mem_cons.mpr ⟨by decide, List.forall_mem_singleton.mpr (by decide)⟩
  have hcut : ([] : List UInt8).length + 1 + ([0x2c, 0x61, 0x62] : List UInt8).length = 4 := rfl
  exact parseString_cut (List.forall_mem_nil _) (List.forall_mem_nil _) hcut hletters (by decide)

end Cut

end CJson

end HfDfs
