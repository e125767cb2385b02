import Mathlib.Order.Basic
import HfDfs.CString

/-!
# `ZLEXCOUNT key [m [m` as the bundled server counts

`zlexcountCommand` of `t_zset.c` presumes that all scores are equal. It is
followed here over the members in the order the set keeps them, by score
and then by name, so the count is whatever the two scans find. The random
node heights of a skiplist are a parameter of the encoding.
-/

namespace HfDfs.Zlexcount

set_option autoImplicit false

/-- A node of a skiplist stands on the levels `0` to `height`. -/
inductive Encoding where
  | ziplist
  | skiplist (height : CString → Nat)

/-- `zzlIsInLexRange` and `zslIsInLexRange` for the range from `m` to `m`. -/
def isInLexRange (members : List CString) (m : CString) : Bool :=
  match members.getLast?, members.head? with
  | some last, some first => decide (m ≤ last) && decide (first ≤ m)
  | _, _ => false

/-- The rest of the ziplist from the first element in range on. -/
def zzlFirstInLexRange (members : List CString) (m : CString) : List CString :=
  if isInLexRange members m then
    match members.dropWhile (· < m) with
    | [] => []
    | e :: rest => if e ≤ m then e :: rest else []
  else []

/-- Follow one level of a skiplist while the next node satisfies `p`. The walk
stands on `x` (the header when `none`), `after` is what lies behind `x`, and
the third argument is the part of `after` still to be searched for a node
of this level. -/
def walkLevel (height : CString → Nat) (level : Nat) (p : CString → Bool) :
    Option CString → List CString → List CString → Option CString × List CString
  | x, after, [] => (x, after)
  | x, after, n :: rest =>
    if level ≤ height n then
      if p n then walkLevel height level p (some n) rest rest else (x, after)
    else walkLevel height level p x after rest

/-- Walk the levels below `levels` from the top one down. -/
def walk (height : CString → Nat) (p : CString → Bool) :
    Nat → Option CString × List CString → Option CString × List CString
  | 0, position => position
  | level + 1, position =>
    walk height p level (walkLevel height level p position.1 position.2 position.2)

/-- `zsl->level` -/
def levels (height : CString → Nat) (members : List CString) : Nat :=
  (members.map height).foldr max 0 + 1

def zslFirstInLexRange (height : CString → Nat) (members : List CString) (m : CString) :
    Option CString :=
  if isInLexRange members m then
    match (walk height (· < m) (levels height members) (none, members)).2 with
    | [] => none
    | n :: _ => if n ≤ m then some n else none
  else none

def zslLastInLexRange (height : CString → Nat) (members : List CString) (m : CString) :
    Option CString :=
  if isInLexRange members m then
    match (walk height (· ≤ m) (levels height members) (none, members)).1 with
    | none => none
    | some x => if m ≤ x then some x else none
  else none

def zslGetRank (members : List CString) (m : CString) : Nat := members.idxOf m + 1

def zlexcount (members : List CString) (m : CString) : Encoding → Nat
  | .ziplist => ((zzlFirstInLexRange members m).takeWhile (· ≤ m)).length
  | .skiplist height =>
    match zslFirstInLexRange height members m with
    | none => 0
    | some first =>
      let count := members.length - (zslGetRank members first - 1)
      match zslLastInLexRange height members m with
      | none => count
      | some last => count - (members.length - zslGetRank members last)

/-! ## An absent member is always counted 0 -/

theorem walkLevel_suffix (height : CString → Nat) (level : Nat) (p : CString → Bool)
    (x : Option CString) (after search : List CString) (hsearch : search <:+ after) :
    (walkLevel height level p x after search).2 <:+ after := by
  induction search generalizing x after with
  | nil => exact List.suffix_refl _
  | cons n rest ih =>
    have hrest : rest <:+ after := (List.suffix_cons n rest).trans hsearch
    rw [walkLevel]
    split
    · split
      · exact (ih (some n) rest (List.suffix_refl _)).trans hrest
      · exact List.suffix_refl _
    · exact ih x after hrest

theorem walk_suffix (height : CString → Nat) (p : CString → Bool) (n : Nat)
    (position : Option CString × List CString) :
    (walk height p n position).2 <:+ position.2 := by
  induction n generalizing position with
  | zero => exact List.suffix_refl _
  | succ level ih =>
    exact (ih _).trans (walkLevel_suffix height level p _ _ _ (List.suffix_refl _))

/-- The bottom level holds every node, so the walk stops in front of a node
that fails `p`. -/
theorem walkLevel_zero_head (height : CString → Nat) (p : CString → Bool)
    (x : Option CString) (after : List CString) {n : CString} {rest : List CString}
    (h : (walkLevel height 0 p x after after).2 = n :: rest) : p n = false := by
  induction after generalizing x with
  | nil => cases h
  | cons a after ih =>
    rw [walkLevel, if_pos (Nat.zero_le _)] at h
    split at h
    · exact ih (some a) h
    · obtain ⟨rfl, -⟩ := List.cons.inj h
      simpa using ‹¬p a = true›

theorem walk_head (height : CString → Nat) (p : CString → Bool) (level : Nat)
    (position : Option CString × List CString) {n : CString} {rest : List CString}
    (h : (walk height p (level + 1) position).2 = n :: rest) : p n = false := by
  induction level generalizing position with
  | zero => exact walkLevel_zero_head height p position.1 position.2 h
  | succ level ih => exact ih _ h

theorem zzlFirstInLexRange_of_notMem {members : List CString} {m : CString} (h : m ∉ members) :
    zzlFirstInLexRange members m = [] := by
  rw [zzlFirstInLexRange]
  split
  · split
    · rfl
    · rename_i e rest hdrop
      have hmem : e ∈ members := by
        have : e ∈ members.dropWhile (· < m) := hdrop ▸ List.mem_cons_self
        exact (List.dropWhile_sublist _).subset this
      have hge : ¬ e < m := by
        have := List.head_dropWhile_not (· < m) (l := members) (by simp [hdrop])
        simpa [hdrop] using this
      rw [if_neg]
      intro hle
      exact h ((le_antisymm hle (not_lt.mp hge)) ▸ hmem)
  · rfl

theorem zslFirstInLexRange_of_notMem (height : CString → Nat) {members : List CString}
    {m : CString} (h : m ∉ members) : zslFirstInLexRange height members m = none := by
  rw [zslFirstInLexRange]
  split
  · split
    · rfl
    · rename_i n rest hwalk
      have hmem : n ∈ members := by
        have hsuffix := walk_suffix height (· < m) (levels height members) (none, members)
        rw [hwalk] at hsuffix
        exact hsuffix.subset List.mem_cons_self
      have hge : ¬ n < m := by
        have := walk_head height (· < m) _ (none, members) hwalk
        simpa using this
      rw [if_neg]
      intro hle
      exact h ((le_antisymm hle (not_lt.mp hge)) ▸ hmem)
  · rfl

theorem zlexcount_of_notMem {members : List CString} {m : CString} (h : m ∉ members)
    (enc : Encoding) : zlexcount members m enc = 0 := by
  cases enc with
  | ziplist => simp [zlexcount, zzlFirstInLexRange_of_notMem h]
  | skiplist height => simp [zlexcount, zslFirstInLexRange_of_notMem height h]

-- With unequal scores a member that is present can be counted 0 or twice.
example : zlexcount [bytes "b", bytes "a"] (bytes "b") .ziplist = 0 := by decide
example : zlexcount [bytes "b", bytes "a", bytes "c"] (bytes "b") .ziplist = 2 := by decide

end HfDfs.Zlexcount
