import Mathlib.Data.List.Sort
import Mathlib.Data.Prod.Lex
import Mathlib.Data.Int.Order.Basic

/-!
# Sets whose members carry a score

Entries are kept in one list, ordered by score and then by member, and no
member occurs twice. Both facts are fields, so the score of a member is a
function and the list is determined by that function.
-/

namespace ScoredSets

set_option autoImplicit false

structure Entry (μ : Type) where
  score : Int
  member : μ
deriving DecidableEq, Repr

variable {μ : Type} [LinearOrder μ]

instance : LinearOrder (Entry μ) :=
  LinearOrder.lift' (fun e => toLex (e.score, e.member)) fun a b h => by
    cases a
    cases b
    simpa using h

theorem Entry.le_iff {a b : Entry μ} :
    a ≤ b ↔ a.score < b.score ∨ a.score = b.score ∧ a.member ≤ b.member :=
  Prod.Lex.toLex_le_toLex

structure ScoredSet (μ : Type) [LinearOrder μ] where
  entries : List (Entry μ)
  sorted : entries.Pairwise (· ≤ ·)
  unique : (entries.map Entry.member).Nodup

namespace ScoredSet

def empty : ScoredSet μ := ⟨[], by simp, by simp⟩

def score (z : ScoredSet μ) (m : μ) : Option Int :=
  (z.entries.find? (·.member = m)).map Entry.score

def card (z : ScoredSet μ) : Nat := z.entries.length

def erase (z : ScoredSet μ) (m : μ) : ScoredSet μ where
  entries := z.entries.filter (·.member ≠ m)
  sorted := z.sorted.filter _
  unique := z.unique.sublist (List.filter_sublist.map _)

/-- Give `m` the score `x`, whether or not it is a member already. -/
def put (z : ScoredSet μ) (m : μ) (x : Int) : ScoredSet μ where
  entries := (z.erase m).entries.orderedInsert (· ≤ ·) ⟨x, m⟩
  sorted := (z.erase m).sorted.orderedInsert _ _
  unique := by
    rw [((List.perm_orderedInsert (· ≤ ·) _ _).map Entry.member).nodup_iff, List.map_cons,
      List.nodup_cons]
    refine ⟨?_, (z.erase m).unique⟩
    simp [erase]

theorem mem_iff_find {entries : List (Entry μ)} (unique : (entries.map Entry.member).Nodup)
    (m : μ) (x : Int) :
    (⟨x, m⟩ : Entry μ) ∈ entries ↔
      (entries.find? (·.member = m)).map Entry.score = some x := by
  induction entries with
  | nil => simp
  | cons e rest ih =>
    rw [List.map_cons, List.nodup_cons] at unique
    rw [List.mem_cons, List.find?_cons, ih unique.2]
    by_cases hm : e.member = m
    · -- the head is the only entry of `m`
      have hrest : rest.find? (·.member = m) = none := by
        rw [List.find?_eq_none]
        intro a ha h
        exact unique.1 (List.mem_map.mpr ⟨a, ha, (of_decide_eq_true h).trans hm.symm⟩)
      rw [hrest]
      subst hm
      cases e
      simp [eq_comm]
    · have hne : (⟨x, m⟩ : Entry μ) ≠ e := fun h => hm (h ▸ rfl)
      simp [hne, hm]

theorem mem_entries_iff (z : ScoredSet μ) (m : μ) (x : Int) :
    (⟨x, m⟩ : Entry μ) ∈ z.entries ↔ z.score m = some x :=
  mem_iff_find z.unique m x

theorem score_eq_none_iff (z : ScoredSet μ) (m : μ) :
    z.score m = none ↔ m ∉ z.entries.map Entry.member := by
  simp [score]

theorem mem_of_score {z : ScoredSet μ} {m : μ} {x : Int} (h : z.score m = some x) :
    m ∈ z.entries.map Entry.member :=
  List.mem_map.mpr ⟨_, (z.mem_entries_iff m x).mpr h, rfl⟩

@[simp] theorem score_empty (m : μ) : (empty : ScoredSet μ).score m = none := rfl

@[simp] theorem score_put (z : ScoredSet μ) (m k : μ) (x : Int) :
    (z.put m x).score k = if k = m then some x else z.score k := by
  apply Option.ext
  intro y
  rw [← mem_entries_iff, put, List.mem_orderedInsert, Entry.mk.injEq]
  by_cases hk : k = m
  · simp [hk, erase, eq_comm]
  · simp [hk, erase, mem_entries_iff]

@[simp] theorem score_erase (z : ScoredSet μ) (m k : μ) :
    (z.erase m).score k = if k = m then none else z.score k := by
  apply Option.ext
  intro y
  rw [← mem_entries_iff]
  by_cases hk : k = m
  · simp [hk, erase]
  · simp [hk, erase, mem_entries_iff]

/-- Equal scores make equal sets: the entries are the graph of the scores, in order. -/
theorem ext_score {z w : ScoredSet μ} (h : ∀ m, z.score m = w.score m) : z = w := by
  have hperm : z.entries.Perm w.entries := by
    rw [List.perm_ext_iff_of_nodup z.unique.of_map w.unique.of_map]
    rintro ⟨x, m⟩
    rw [mem_entries_iff, mem_entries_iff, h]
  have heq : z.entries = w.entries := hperm.eq_of_pairwise' z.sorted w.sorted
  cases z
  cases w
  simpa using heq

theorem erase_of_score_none {z : ScoredSet μ} {m : μ} (h : z.score m = none) : z.erase m = z := by
  apply ext_score
  intro k
  by_cases hk : k = m
  · simp [hk, h]
  · simp [hk]

theorem erase_put_of_score_none {z : ScoredSet μ} {m : μ} (h : z.score m = none) (x : Int) :
    (z.put m x).erase m = z := by
  apply ext_score
  intro k
  by_cases hk : k = m
  · simp [hk, h]
  · simp [hk]

end ScoredSet

end ScoredSets
