import Mathlib.Algebra.Order.Group.Unbundled.Int
import Mathlib.Algebra.Order.Ring.Int

/-!
# JSON texts

A part of the grammar of JSON over bytes, with the datum each text stands
for. Strings are in UTF-8; an escape of NUL and one half of a surrogate pair
stand for nothing that a C string holds and are left out. So are the numbers
that are no integers, or larger than `2 ^ 53`, up to which a double has all
of them. What may stand between two tokens is a parameter.
-/

namespace JsonText

set_option autoImplicit false

inductive Datum where
  | null
  | bool (b : Bool)
  | integer (n : ℤ)
  | string (s : List UInt8)
  | array (items : List Datum)
  | object (members : List (List UInt8 × Datum))

mutual

/-- A datum with a text: its integers are exact and its strings without NUL. -/
def Datum.Writable : Datum → Prop
  | .null => True
  | .bool _ => True
  | .integer n => |n| ≤ 2 ^ 53
  | .string s => 0 ∉ s
  | .array items => WritableItems items
  | .object members => WritableMembers members

def WritableItems : List Datum → Prop
  | [] => True
  | v :: vs => v.Writable ∧ WritableItems vs

def WritableMembers : List (List UInt8 × Datum) → Prop
  | [] => True
  | (name, v) :: ms => 0 ∉ name ∧ v.Writable ∧ WritableMembers ms

end

/-! ### Numbers -/

def IsDigit (c : UInt8) : Prop := 0x30 ≤ c ∧ c ≤ 0x39

def natOf (ds : List UInt8) : ℕ := ds.foldl (fun n c => 10 * n + (c.toNat - 0x30)) 0

inductive IntPart : List UInt8 → Prop
  | zero : IntPart [0x30]
  | digits {c : UInt8} {ds : List UInt8} :
      0x31 ≤ c → c ≤ 0x39 → (∀ d ∈ ds, IsDigit d) → IntPart (c :: ds)

/-- The text of a fractional part, and its digits. -/
inductive Fraction : List UInt8 → List UInt8 → Prop
  | none : Fraction [] []
  | digits {d : UInt8} {ds : List UInt8} :
      IsDigit d → (∀ c ∈ ds, IsDigit c) → Fraction (0x2e :: d :: ds) (d :: ds)

def ExponentMark (c : UInt8) : Prop := c = 0x65 ∨ c = 0x45

inductive Exponent : List UInt8 → ℤ → Prop
  | none : Exponent [] 0
  | unsigned {e d : UInt8} {ds : List UInt8} :
      ExponentMark e → (∀ c ∈ d :: ds, IsDigit c) → Exponent (e :: d :: ds) (natOf (d :: ds))
  | plus {e d : UInt8} {ds : List UInt8} :
      ExponentMark e → (∀ c ∈ d :: ds, IsDigit c) →
        Exponent (e :: 0x2b :: d :: ds) (natOf (d :: ds))
  | minus {e d : UInt8} {ds : List UInt8} :
      ExponentMark e → (∀ c ∈ d :: ds, IsDigit c) →
        Exponent (e :: 0x2d :: d :: ds) (-natOf (d :: ds))

/-- The digits of a number and the power of ten they are scaled by. -/
inductive Magnitude : List UInt8 → ℕ → ℕ → Prop
  | mk {i f fs e : List UInt8} {k : ℕ} :
      IntPart i → Fraction f fs → Exponent e (k + fs.length) →
        Magnitude (i ++ (f ++ e)) (natOf (i ++ fs)) k

inductive Number : List UInt8 → ℤ → Prop
  | unsigned {t : List UInt8} {m k : ℕ} :
      Magnitude t m k → m * 10 ^ k ≤ 2 ^ 53 → 10 ^ k ≤ 2 ^ 53 → Number t (m * 10 ^ k : ℕ)
  | minus {t : List UInt8} {m k : ℕ} :
      Magnitude t m k → 0 < m → m * 10 ^ k ≤ 2 ^ 53 → 10 ^ k ≤ 2 ^ 53 →
        Number (0x2d :: t) (-(m * 10 ^ k : ℕ))

/-! ### Strings -/

inductive HexDigit : UInt8 → ℕ → Prop
  | decimal {c : UInt8} : 0x30 ≤ c → c ≤ 0x39 → HexDigit c (c.toNat - 0x30)
  | capital {c : UInt8} : 0x41 ≤ c → c ≤ 0x46 → HexDigit c (c.toNat - 0x41 + 10)
  | small {c : UInt8} : 0x61 ≤ c → c ≤ 0x66 → HexDigit c (c.toNat - 0x61 + 10)

/-- A code unit of UTF-16. -/
inductive CodeUnit : List UInt8 → ℕ → Prop
  | mk {a b c d : UInt8} {u v w x : ℕ} :
      HexDigit a u → HexDigit b v → HexDigit c w → HexDigit d x →
        CodeUnit [a, b, c, d] (u * 0x1000 + v * 0x100 + w * 0x10 + x)

/-- The escapes of one letter, each with what it stands for. -/
def shortEscapes : List (UInt8 × UInt8) :=
  [(0x22, 0x22), (0x5c, 0x5c), (0x2f, 0x2f), (0x62, 0x08), (0x66, 0x0c), (0x6e, 0x0a),
    (0x72, 0x0d), (0x74, 0x09)]

inductive Letter : List UInt8 → List UInt8 → Prop
  | plain {c : UInt8} : 0x20 ≤ c → c ≠ 0x22 → c ≠ 0x5c → Letter [c] [c]
  | short {e c : UInt8} : (e, c) ∈ shortEscapes → Letter [0x5c, e] [c]
  | unit {t : List UInt8} {c : Char} :
      CodeUnit t c.toNat → c ≠ '\x00' → Letter (0x5c :: 0x75 :: t) (String.utf8EncodeChar c)
  | pair {t t' : List UInt8} {high low : ℕ} {c : Char} :
      CodeUnit t (0xd800 + high) → high < 0x400 → CodeUnit t' (0xdc00 + low) → low < 0x400 →
        c.toNat = 0x10000 + high * 0x400 + low →
        Letter (0x5c :: 0x75 :: (t ++ 0x5c :: 0x75 :: t')) (String.utf8EncodeChar c)

inductive Letters : List UInt8 → List UInt8 → Prop
  | nil : Letters [] []
  | cons {t ts s ss : List UInt8} : Letter t s → Letters ts ss → Letters (t ++ ts) (s ++ ss)

inductive Quoted : List UInt8 → List UInt8 → Prop
  | mk {t s : List UInt8} : Letters t s → Quoted (0x22 :: (t ++ [0x22])) s

/-! ### Texts -/

def IsBlank (c : UInt8) : Prop := c = 0x20 ∨ c = 0x09 ∨ c = 0x0a ∨ c = 0x0d

def Blanks (t : List UInt8) : Prop := ∀ c ∈ t, IsBlank c

/-- Nothing between the tokens. -/
def Tight (t : List UInt8) : Prop := t = []

section Texts

variable (Gap : List UInt8 → Prop)

mutual

inductive Text : List UInt8 → Datum → Prop
  | null : Text [0x6e, 0x75, 0x6c, 0x6c] .null
  | true : Text [0x74, 0x72, 0x75, 0x65] (.bool true)
  | false : Text [0x66, 0x61, 0x6c, 0x73, 0x65] (.bool false)
  | number {t : List UInt8} {n : ℤ} : Number t n → Text t (.integer n)
  | string {t s : List UInt8} : Quoted t s → Text t (.string s)
  | emptyArray {g : List UInt8} : Gap g → Text (0x5b :: (g ++ [0x5d])) (.array [])
  | array {t : List UInt8} {v : Datum} {vs : List Datum} :
      Elements t v vs → Text (0x5b :: (t ++ [0x5d])) (.array (v :: vs))
  | emptyObject {g : List UInt8} : Gap g → Text (0x7b :: (g ++ [0x7d])) (.object [])
  | object {t : List UInt8} {m : List UInt8 × Datum} {ms : List (List UInt8 × Datum)} :
      Members t m ms → Text (0x7b :: (t ++ [0x7d])) (.object (m :: ms))

inductive Elements : List UInt8 → Datum → List Datum → Prop
  | last {before t after : List UInt8} {v : Datum} :
      Gap before → Text t v → Gap after → Elements (before ++ (t ++ after)) v []
  | more {before t after ts : List UInt8} {v w : Datum} {ws : List Datum} :
      Gap before → Text t v → Gap after → Elements ts w ws →
        Elements (before ++ (t ++ (after ++ 0x2c :: ts))) v (w :: ws)

inductive Members : List UInt8 → List UInt8 × Datum → List (List UInt8 × Datum) → Prop
  | last {before q behind ahead t after name : List UInt8} {v : Datum} :
      Gap before → Quoted q name → Gap behind → Gap ahead → Text t v → Gap after →
        Members (before ++ (q ++ (behind ++ 0x3a :: (ahead ++ (t ++ after))))) (name, v) []
  | more {before q behind ahead t after ts name : List UInt8} {v : Datum}
      {m : List UInt8 × Datum} {ms : List (List UInt8 × Datum)} :
      Gap before → Quoted q name → Gap behind → Gap ahead → Text t v → Gap after →
        Members ts m ms →
        Members (before ++ (q ++ (behind ++ 0x3a :: (ahead ++ (t ++ (after ++ 0x2c :: ts))))))
          (name, v) (m :: ms)

end

end Texts

mutual

/-- Another notion of what may stand between the tokens. -/
theorem Text.mono {Gap Gap' : List UInt8 → Prop} (hgap : ∀ g, Gap g → Gap' g) {t : List UInt8}
    {v : Datum} : Text Gap t v → Text Gap' t v
  | .null => .null
  | .true => .true
  | .false => .false
  | .number h => .number h
  | .string h => .string h
  | .emptyArray hg => .emptyArray (hgap _ hg)
  | .array h => .array (h.mono hgap)
  | .emptyObject hg => .emptyObject (hgap _ hg)
  | .object h => .object (h.mono hgap)

theorem Elements.mono {Gap Gap' : List UInt8 → Prop} (hgap : ∀ g, Gap g → Gap' g) {t : List UInt8}
    {v : Datum} {vs : List Datum} : Elements Gap t v vs → Elements Gap' t v vs
  | .last hbefore h hafter => .last (hgap _ hbefore) (h.mono hgap) (hgap _ hafter)
  | .more hbefore h hafter hs =>
    .more (hgap _ hbefore) (h.mono hgap) (hgap _ hafter) (hs.mono hgap)

theorem Members.mono {Gap Gap' : List UInt8 → Prop} (hgap : ∀ g, Gap g → Gap' g) {t : List UInt8}
    {m : List UInt8 × Datum} {ms : List (List UInt8 × Datum)} :
    Members Gap t m ms → Members Gap' t m ms
  | .last hbefore hq hbehind hahead h hafter =>
    .last (hgap _ hbefore) hq (hgap _ hbehind) (hgap _ hahead) (h.mono hgap) (hgap _ hafter)
  | .more hbefore hq hbehind hahead h hafter hs =>
    .more (hgap _ hbefore) hq (hgap _ hbehind) (hgap _ hahead) (h.mono hgap) (hgap _ hafter)
      (hs.mono hgap)

end

/-! ### The shortest text -/

mutual

/-- No text of the datum is shorter. -/
def Datum.weight : Datum → ℕ
  | .null => 4
  | .bool b => if b then 4 else 5
  | .integer _ => 1
  | .string s => s.length + 2
  | .array items => weightItems items + 1
  | .object members => weightMembers members + 1

/-- Each with the bracket or comma before it. -/
def weightItems : List Datum → ℕ
  | [] => 1
  | [v] => v.weight + 1
  | v :: vs => v.weight + 1 + weightItems vs

def weightMembers : List (List UInt8 × Datum) → ℕ
  | [] => 1
  | [(name, v)] => name.length + v.weight + 4
  | (name, v) :: ms => name.length + v.weight + 4 + weightMembers ms

end

theorem CodeUnit.length_eq {t : List UInt8} {n : ℕ} (h : CodeUnit t n) : t.length = 4 := by
  obtain ⟨_, _, _, _⟩ := h
  rfl

theorem Letter.length_le {t s : List UInt8} (h : Letter t s) : s.length ≤ t.length := by
  have hutf8 (c : Char) : (String.utf8EncodeChar c).length ≤ 4 := by
    rw [String.length_utf8EncodeChar]
    exact Char.utf8Size_le_four c
  cases h with
  | plain _ _ _ => exact le_rfl
  | short _ => exact Nat.le_succ 1
  | unit hunit _ =>
    rw [List.length_cons, List.length_cons, hunit.length_eq]
    exact (hutf8 _).trans (by decide)
  | pair hhigh _ hlow _ _ =>
    rw [List.length_cons, List.length_cons, List.length_append, hhigh.length_eq]
    exact (hutf8 _).trans (by omega)

theorem Letters.length_le {t s : List UInt8} (h : Letters t s) : s.length ≤ t.length := by
  induction h with
  | nil => exact le_rfl
  | cons hletter _ ih =>
    rw [List.length_append, List.length_append]
    exact Nat.add_le_add hletter.length_le ih

theorem Quoted.length_le {t s : List UInt8} (h : Quoted t s) : s.length + 2 ≤ t.length := by
  obtain ⟨hletters⟩ := h
  have := hletters.length_le
  simp only [List.length_cons, List.length_append, List.length_nil]
  omega

theorem Magnitude.length_pos {t : List UInt8} {m k : ℕ} (h : Magnitude t m k) : 1 ≤ t.length := by
  obtain ⟨hint, _, _⟩ := h
  cases hint with
  | zero => exact Nat.le_add_left 1 _
  | digits _ _ _ => exact Nat.le_add_left 1 _

theorem Number.length_pos {t : List UInt8} {n : ℤ} (h : Number t n) : 1 ≤ t.length := by
  cases h with
  | unsigned h _ _ => exact h.length_pos
  | minus _ _ _ _ => exact Nat.le_add_left 1 _

section Weight

variable {Gap : List UInt8 → Prop}

mutual

theorem Text.weight_le {t : List UInt8} {v : Datum} : Text Gap t v → v.weight ≤ t.length
  | .null => le_rfl
  | .true => le_rfl
  | .false => le_rfl
  | .number h => h.length_pos
  | .string h => h.length_le
  | .emptyArray _ => by simp [Datum.weight, weightItems]
  | .array h => by
    have := h.weight_le
    simp only [Datum.weight, List.length_cons, List.length_append, List.length_nil]
    omega
  | .emptyObject _ => by simp [Datum.weight, weightMembers]
  | .object h => by
    have := h.weight_le
    simp only [Datum.weight, List.length_cons, List.length_append, List.length_nil]
    omega

theorem Elements.weight_le {t : List UInt8} {v : Datum} {vs : List Datum} :
    Elements Gap t v vs → weightItems (v :: vs) ≤ t.length + 1
  | .last _ h _ => by
    have := h.weight_le
    simp only [weightItems, List.length_append]
    omega
  | .more _ h _ hs => by
    have := h.weight_le
    have := hs.weight_le
    rw [weightItems]
    · simp only [List.length_cons, List.length_append]
      omega
    · exact List.cons_ne_nil _ _

theorem Members.weight_le {t : List UInt8} {m : List UInt8 × Datum}
    {ms : List (List UInt8 × Datum)} : Members Gap t m ms → weightMembers (m :: ms) ≤ t.length + 1
  | .last _ hq _ _ h _ => by
    have := hq.length_le
    have := h.weight_le
    simp only [weightMembers, List.length_cons, List.length_append]
    omega
  | .more _ hq _ _ h _ hs => by
    have := hq.length_le
    have := h.weight_le
    have := hs.weight_le
    rw [weightMembers]
    · simp only [List.length_cons, List.length_append]
      omega
    · exact List.cons_ne_nil _ _

end

end Weight

end JsonText
