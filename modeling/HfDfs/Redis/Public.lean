import HfDfs.Redis.Server

/-!
# The public set and the name hash

The two keys of `redis_keys.h`: a sorted set of the shared files, scored by
downloads, and the hash that gives their names back. The handlers test
for a member, publish it in both structures, or take it from both.
-/

namespace HfDfs

set_option autoImplicit false

open ScoredSets Zlexcount

def FILE_PUBLIC_ZSET : CString := bytes "FILE_PUBLIC_ZSET"

def FILE_NAME_HASH : CString := bytes "FILE_NAME_HASH"

theorem zset_ne_hash : FILE_PUBLIC_ZSET ≠ FILE_NAME_HASH := by decide

namespace Redis

/-- Neither key was taken for something else. -/
structure Typed (r : Redis) : Prop where
  zset : (r.zsetAt FILE_PUBLIC_ZSET).isSome
  hash : (r.hashAt FILE_NAME_HASH).isSome

def publicSet (r : Redis) : ScoredSet CString := (r.zsetAt FILE_PUBLIC_ZSET).getD .empty

def nameHash (r : Redis) : CString → Option CString :=
  (r.hashAt FILE_NAME_HASH).getD fun _ => none

/-- What `rop_zset_exit` answers. -/
def presence (r : Redis) (mark : CString) (enc : Encoding) : Int :=
  match r.zsetAt FILE_PUBLIC_ZSET with
  | none => -1
  | some z => zlexcount (z.entries.map Entry.member) mark enc

def ranked (r : Redis) (mark : CString) : Bool := (r.publicSet.score mark).isSome

def named (r : Redis) (mark : CString) : Bool := (r.nameHash mark).isSome

def rank (r : Redis) (score : Int) (mark : CString) : Redis :=
  (r.exec (.zadd FILE_PUBLIC_ZSET score mark)).2

def unrank (r : Redis) (mark : CString) : Redis := (r.exec (.zrem FILE_PUBLIC_ZSET mark)).2

def download (r : Redis) (mark : CString) : Redis :=
  (r.exec (.zincrby FILE_PUBLIC_ZSET 1 mark)).2

def setName (r : Redis) (mark name : CString) : Redis :=
  (r.exec (.hset FILE_NAME_HASH mark name)).2

def unname (r : Redis) (mark : CString) : Redis := (r.exec (.hdel FILE_NAME_HASH mark)).2

def publish (r : Redis) (score : Int) (mark name : CString) : Redis :=
  (r.rank score mark).setName mark name

def unpublish (r : Redis) (mark : CString) : Redis := (r.unrank mark).unname mark

theorem typed_empty : Typed empty := ⟨rfl, rfl⟩

@[simp] theorem presence_empty (mark : CString) (enc : Encoding) :
    Redis.empty.presence mark enc = 0 := by
  cases enc <;> rfl

theorem zsetAt_of_presence {r : Redis} {mark : CString} {enc : Encoding}
    (h : r.presence mark enc ≠ -1) : (r.zsetAt FILE_PUBLIC_ZSET).isSome := by
  cases hz : r.zsetAt FILE_PUBLIC_ZSET with
  | none => simp [presence, hz] at h
  | some z => rfl

/-- A member the test answers 1 for is there; only the converse can fail. -/
theorem ranked_of_presence {r : Redis} {mark : CString} {enc : Encoding}
    (h : r.presence mark enc = 1) : r.ranked mark = true := by
  cases hz : r.zsetAt FILE_PUBLIC_ZSET with
  | none => simp [presence, hz] at h
  | some z =>
    rw [ranked, publicSet, hz, Option.getD_some, ← Option.ne_none_iff_isSome, ne_eq,
      ScoredSet.score_eq_none_iff]
    intro hnone
    simp [presence, hz, zlexcount_of_notMem hnone] at h

theorem publicSet_congr {r t : Redis} (h : t FILE_PUBLIC_ZSET = r FILE_PUBLIC_ZSET) :
    t.publicSet = r.publicSet := by
  rw [publicSet, publicSet, zsetAt_congr h]

theorem nameHash_congr {r t : Redis} (h : t FILE_NAME_HASH = r FILE_NAME_HASH) :
    t.nameHash = r.nameHash := by
  rw [nameHash, nameHash, hashAt_congr h]

theorem Typed.congr {r t : Redis} (h : r.Typed) (hz : t FILE_PUBLIC_ZSET = r FILE_PUBLIC_ZSET)
    (hf : t FILE_NAME_HASH = r FILE_NAME_HASH) : t.Typed := by
  refine ⟨?_, ?_⟩
  · rw [zsetAt_congr hz]
    exact h.zset
  · rw [hashAt_congr hf]
    exact h.hash

theorem Typed.zsetAt_eq {r : Redis} (h : r.Typed) :
    r.zsetAt FILE_PUBLIC_ZSET = some r.publicSet := by
  obtain ⟨z, hz⟩ := Option.isSome_iff_exists.mp h.zset
  rw [publicSet, hz, Option.getD_some]

theorem Typed.hashAt_eq {r : Redis} (h : r.Typed) :
    r.hashAt FILE_NAME_HASH = some r.nameHash := by
  obtain ⟨fields, hf⟩ := Option.isSome_iff_exists.mp h.hash
  rw [nameHash, hf, Option.getD_some]

/-- The mark is neither in the public set nor in the name hash. -/
structure Lacks (r : Redis) (mark : CString) : Prop where
  zset : ∃ z, r.zsetAt FILE_PUBLIC_ZSET = some z ∧ z.score mark = none
  hash : ∃ names, r.hashAt FILE_NAME_HASH = some names ∧ names mark = none

namespace Lacks

variable {r : Redis} {mark : CString}

theorem typed (h : r.Lacks mark) : r.Typed := by
  obtain ⟨z, hz, -⟩ := h.zset
  obtain ⟨names, hf, -⟩ := h.hash
  exact ⟨by rw [hz]; rfl, by rw [hf]; rfl⟩

theorem score (h : r.Lacks mark) : r.publicSet.score mark = none := by
  obtain ⟨z, hz, hscore⟩ := h.zset
  rwa [publicSet, hz, Option.getD_some]

theorem name (h : r.Lacks mark) : r.nameHash mark = none := by
  obtain ⟨names, hf, hname⟩ := h.hash
  rwa [nameHash, hf, Option.getD_some]

theorem presence (h : r.Lacks mark) (enc : Encoding) : r.presence mark enc = 0 := by
  obtain ⟨z, hz, hscore⟩ := h.zset
  rw [ScoredSet.score_eq_none_iff] at hscore
  simp [Redis.presence, hz, zlexcount_of_notMem hscore]

end Lacks

/-! ## Effects on well-typed keys -/

theorem rank_other (r : Redis) (score : Int) (mark : CString) {key : CString}
    (h : key ≠ FILE_PUBLIC_ZSET) : (r.rank score mark) key = r key := by
  cases hz : r.zsetAt FILE_PUBLIC_ZSET with
  | none => simp [rank, exec, hz]
  | some z => simp [rank, exec, hz, h]

theorem unrank_other (r : Redis) (mark : CString) {key : CString}
    (h : key ≠ FILE_PUBLIC_ZSET) : (r.unrank mark) key = r key := by
  cases hz : r.zsetAt FILE_PUBLIC_ZSET with
  | none => simp [unrank, exec, hz]
  | some z =>
    by_cases hm : z.score mark = none
    · simp [unrank, exec, hz, hm]
    · simp [unrank, exec, hz, hm, h]

theorem download_other (r : Redis) (mark : CString) {key : CString}
    (h : key ≠ FILE_PUBLIC_ZSET) : (r.download mark) key = r key := by
  cases hz : r.zsetAt FILE_PUBLIC_ZSET with
  | none => simp [download, exec, hz]
  | some z => simp [download, exec, hz, h]

theorem setName_other (r : Redis) (mark name : CString) {key : CString}
    (h : key ≠ FILE_NAME_HASH) : (r.setName mark name) key = r key := by
  cases hf : r.hashAt FILE_NAME_HASH with
  | none => simp [setName, exec, hf]
  | some fields => simp [setName, exec, hf, h]

theorem unname_other (r : Redis) (mark : CString) {key : CString}
    (h : key ≠ FILE_NAME_HASH) : (r.unname mark) key = r key := by
  cases hf : r.hashAt FILE_NAME_HASH with
  | none => simp [unname, exec, hf]
  | some fields =>
    by_cases hm : fields mark = none
    · simp [unname, exec, hf, hm]
    · simp [unname, exec, hf, hm, h]

@[simp] theorem nameHash_rank (r : Redis) (score : Int) (mark : CString) :
    (r.rank score mark).nameHash = r.nameHash :=
  nameHash_congr (rank_other r score mark zset_ne_hash.symm)

@[simp] theorem nameHash_unrank (r : Redis) (mark : CString) :
    (r.unrank mark).nameHash = r.nameHash :=
  nameHash_congr (unrank_other r mark zset_ne_hash.symm)

@[simp] theorem nameHash_download (r : Redis) (mark : CString) :
    (r.download mark).nameHash = r.nameHash :=
  nameHash_congr (download_other r mark zset_ne_hash.symm)

@[simp] theorem publicSet_setName (r : Redis) (mark name : CString) :
    (r.setName mark name).publicSet = r.publicSet :=
  publicSet_congr (setName_other r mark name zset_ne_hash)

@[simp] theorem publicSet_unname (r : Redis) (mark : CString) :
    (r.unname mark).publicSet = r.publicSet :=
  publicSet_congr (unname_other r mark zset_ne_hash)

/-- Removing a member that is not there changes nothing. -/
theorem unrank_of_not_ranked {r : Redis} {mark : CString} (h : r.ranked mark = false) :
    r.unrank mark = r := by
  cases hz : r.zsetAt FILE_PUBLIC_ZSET with
  | none => simp [unrank, exec, hz]
  | some z =>
    have hnone : z.score mark = none := by simpa [ranked, publicSet, hz] using h
    simp [unrank, exec, hz, hnone]

@[simp] theorem named_unrank (r : Redis) (mark k : CString) :
    (r.unrank mark).named k = r.named k := by
  rw [named, named, nameHash_unrank]

section Effects

variable {r : Redis} (score : Int) (mark name : CString)

theorem publicSet_rank (hz : (r.zsetAt FILE_PUBLIC_ZSET).isSome) :
    (r.rank score mark).publicSet = r.publicSet.put mark score := by
  obtain ⟨z, hz⟩ := Option.isSome_iff_exists.mp hz
  simp [rank, exec, publicSet, hz]

theorem publicSet_unrank : (r.unrank mark).publicSet = r.publicSet.erase mark := by
  cases hz : r.zsetAt FILE_PUBLIC_ZSET with
  | none =>
    simp only [unrank, exec, publicSet, hz, Option.getD_none]
    exact (ScoredSet.erase_of_score_none (ScoredSet.score_empty mark)).symm
  | some z =>
    by_cases hm : z.score mark = none
    · simp [unrank, exec, publicSet, hz, hm, ScoredSet.erase_of_score_none]
    · simp [unrank, exec, publicSet, hz, hm]

theorem publicSet_download (hz : (r.zsetAt FILE_PUBLIC_ZSET).isSome) :
    (r.download mark).publicSet = r.publicSet.put mark ((r.publicSet.score mark).getD 0 + 1) := by
  obtain ⟨z, hz⟩ := Option.isSome_iff_exists.mp hz
  simp [download, exec, publicSet, hz]

theorem nameHash_setName (hf : (r.hashAt FILE_NAME_HASH).isSome) :
    (r.setName mark name).nameHash = Function.update r.nameHash mark (some name) := by
  obtain ⟨fields, hf⟩ := Option.isSome_iff_exists.mp hf
  simp [setName, exec, nameHash, hf]

theorem nameHash_unname : (r.unname mark).nameHash = Function.update r.nameHash mark none := by
  cases hf : r.hashAt FILE_NAME_HASH with
  | none =>
    simp only [unname, exec, nameHash, hf, Option.getD_none]
    exact (Function.update_eq_self mark fun _ => none).symm
  | some fields =>
    by_cases hm : fields mark = none
    · simp only [unname, exec, nameHash, hf, hm, if_true, Option.getD_some]
      rw [← hm, Function.update_eq_self]
    · simp [unname, exec, nameHash, hf, hm]

theorem publicSet_publish (hz : (r.zsetAt FILE_PUBLIC_ZSET).isSome) :
    (r.publish score mark name).publicSet = r.publicSet.put mark score := by
  rw [publish, publicSet_setName, publicSet_rank score mark hz]

theorem nameHash_publish (hf : (r.hashAt FILE_NAME_HASH).isSome) :
    (r.publish score mark name).nameHash = Function.update r.nameHash mark (some name) := by
  rw [publish, nameHash_setName, nameHash_rank]
  rwa [hashAt_congr (rank_other r score mark zset_ne_hash.symm)]

theorem publicSet_unpublish : (r.unpublish mark).publicSet = r.publicSet.erase mark := by
  rw [unpublish, publicSet_unname, publicSet_unrank]

theorem nameHash_unpublish :
    (r.unpublish mark).nameHash = Function.update r.nameHash mark none := by
  rw [unpublish, nameHash_unname, nameHash_unrank]

end Effects

section Typed

variable {r : Redis} (ht : r.Typed) (score : Int) (mark name : CString)
include ht

theorem typed_rank : (r.rank score mark).Typed := by
  obtain ⟨z, hz⟩ := Option.isSome_iff_exists.mp ht.zset
  refine ⟨by simp [rank, exec, hz], ?_⟩
  rw [hashAt_congr (rank_other r score mark zset_ne_hash.symm)]
  exact ht.hash

theorem typed_unrank : (r.unrank mark).Typed := by
  obtain ⟨z, hz⟩ := Option.isSome_iff_exists.mp ht.zset
  refine ⟨?_, ?_⟩
  · by_cases hm : z.score mark = none
    · simp [unrank, exec, hz, hm]
    · simp [unrank, exec, hz, hm]
  · rw [hashAt_congr (unrank_other r mark zset_ne_hash.symm)]
    exact ht.hash

theorem typed_download : (r.download mark).Typed := by
  obtain ⟨z, hz⟩ := Option.isSome_iff_exists.mp ht.zset
  refine ⟨by simp [download, exec, hz], ?_⟩
  rw [hashAt_congr (download_other r mark zset_ne_hash.symm)]
  exact ht.hash

theorem typed_setName : (r.setName mark name).Typed := by
  obtain ⟨fields, hf⟩ := Option.isSome_iff_exists.mp ht.hash
  refine ⟨?_, by simp [setName, exec, hf]⟩
  rw [zsetAt_congr (setName_other r mark name zset_ne_hash)]
  exact ht.zset

theorem typed_unname : (r.unname mark).Typed := by
  obtain ⟨fields, hf⟩ := Option.isSome_iff_exists.mp ht.hash
  refine ⟨?_, ?_⟩
  · rw [zsetAt_congr (unname_other r mark zset_ne_hash)]
    exact ht.zset
  · by_cases hm : fields mark = none
    · simp [unname, exec, hf, hm]
    · simp [unname, exec, hf, hm]

theorem typed_publish : (r.publish score mark name).Typed :=
  typed_setName (typed_rank ht score mark) mark name

theorem typed_unpublish : (r.unpublish mark).Typed := typed_unname (typed_unrank ht mark) mark

theorem ranked_publish (k : CString) :
    (r.publish score mark name).ranked k = (decide (k = mark) || r.ranked k) := by
  rw [ranked, publicSet_publish _ _ _ ht.zset, ScoredSet.score_put, ranked]
  rcases eq_or_ne k mark with rfl | hk
  · simp
  · simp [hk]

theorem named_publish (k : CString) :
    (r.publish score mark name).named k = (decide (k = mark) || r.named k) := by
  rw [named, nameHash_publish _ _ _ ht.hash, named]
  rcases eq_or_ne k mark with rfl | hk
  · simp
  · simp [hk]

end Typed

section Unpublish

variable {r : Redis} {mark : CString} (h : r.Lacks mark) (score : Int) (name : CString)
include h

theorem zsetAt_unpublish_publish :
    ((r.publish score mark name).unpublish mark).zsetAt FILE_PUBLIC_ZSET =
      r.zsetAt FILE_PUBLIC_ZSET := by
  rw [(typed_unpublish (typed_publish h.typed score mark name) mark).zsetAt_eq, h.typed.zsetAt_eq,
    publicSet_unpublish, publicSet_publish score mark name h.typed.zset,
    ScoredSet.erase_put_of_score_none h.score]

theorem hashAt_unpublish_publish :
    ((r.publish score mark name).unpublish mark).hashAt FILE_NAME_HASH =
      r.hashAt FILE_NAME_HASH := by
  rw [(typed_unpublish (typed_publish h.typed score mark name) mark).hashAt_eq, h.typed.hashAt_eq,
    nameHash_unpublish, nameHash_publish score mark name h.typed.hash, Function.update_idem,
    ← h.name, Function.update_eq_self]

end Unpublish

/-- No file is in the public set; names may be left in the hash. -/
structure Bare (r : Redis) : Prop where
  typed : r.Typed
  publicSet_eq : r.publicSet = .empty

theorem bare_empty : Bare empty := ⟨typed_empty, rfl⟩

theorem bare_setName {r : Redis} (h : r.Bare) (mark name : CString) : (r.setName mark name).Bare :=
  ⟨typed_setName h.typed mark name, (publicSet_setName r mark name).trans h.publicSet_eq⟩

/-! ## The two entries of a mark -/

/-- What the public set and the name hash hold for a mark. -/
def entry (r : Redis) (mark : CString) : Option Int × Option CString :=
  (r.publicSet.score mark, r.nameHash mark)

section Entry

variable (r : Redis) (score : Int) (mark name : CString) {k : CString}

theorem entry_rank_other (h : k ≠ mark) : (r.rank score mark).entry k = r.entry k := by
  cases hz : r.zsetAt FILE_PUBLIC_ZSET with
  | none => simp [rank, exec, hz]
  | some z => simp [entry, publicSet_rank score mark (by simp [hz] : (r.zsetAt _).isSome), h]

theorem entry_download_other (h : k ≠ mark) : (r.download mark).entry k = r.entry k := by
  cases hz : r.zsetAt FILE_PUBLIC_ZSET with
  | none => simp [download, exec, hz]
  | some z => simp [entry, publicSet_download mark (by simp [hz] : (r.zsetAt _).isSome), h]

theorem entry_setName_other (h : k ≠ mark) : (r.setName mark name).entry k = r.entry k := by
  cases hf : r.hashAt FILE_NAME_HASH with
  | none => simp [setName, exec, hf]
  | some fields =>
    simp [entry, nameHash_setName mark name (by simp [hf] : (r.hashAt _).isSome), h]

theorem entry_publish_other (h : k ≠ mark) : (r.publish score mark name).entry k = r.entry k := by
  rw [publish, entry_setName_other _ _ _ h, entry_rank_other _ _ _ h]

theorem entry_unpublish_other (h : k ≠ mark) : (r.unpublish mark).entry k = r.entry k := by
  simp [entry, publicSet_unpublish, nameHash_unpublish, h]

variable {r}

theorem entry_rank_eq_iff (hz : (r.zsetAt FILE_PUBLIC_ZSET).isSome) :
    (r.rank score mark).entry mark = r.entry mark ↔ r.publicSet.score mark = some score := by
  simp [entry, publicSet_rank score mark hz, eq_comm]

theorem entry_publish_eq_iff (hz : (r.zsetAt FILE_PUBLIC_ZSET).isSome) :
    (r.publish score mark name).entry mark = r.entry mark ↔
      r.publicSet.score mark = some score ∧
      ∀ names, r.hashAt FILE_NAME_HASH = some names → names mark = some name := by
  cases hf : r.hashAt FILE_NAME_HASH with
  | none =>
    have hsame : (r.publish score mark name).nameHash = r.nameHash := by
      have hrank := hashAt_congr (rank_other r score mark zset_ne_hash.symm)
      simp [publish, setName, exec, hrank.trans hf]
    simp [entry, publicSet_publish score mark name hz, hsame, eq_comm]
  | some names =>
    have hname : r.nameHash = names := by simp [nameHash, hf]
    simp [entry, publicSet_publish score mark name hz, hname, eq_comm,
      nameHash_publish score mark name (by simp [hf] : (r.hashAt FILE_NAME_HASH).isSome)]

/-- A download always shows. -/
theorem entry_download_ne (hz : (r.zsetAt FILE_PUBLIC_ZSET).isSome) :
    (r.download mark).entry mark ≠ r.entry mark := by
  intro heq
  have hscore := congrArg Prod.fst heq
  simp only [entry, publicSet_download mark hz, ScoredSet.score_put, if_true] at hscore
  cases hx : r.publicSet.score mark with
  | none =>
    rw [hx] at hscore
    cases hscore
  | some x =>
    rw [hx, Option.getD_some, Option.some.injEq] at hscore
    omega

/-- Taking a ranked mark away always shows. -/
theorem entry_unpublish_ne (h : r.ranked mark = true) :
    (r.unpublish mark).entry mark ≠ r.entry mark := by
  intro heq
  have hscore := congrArg Prod.fst heq
  simp only [entry, publicSet_unpublish, ScoredSet.score_erase, if_true] at hscore
  rw [ranked, ← hscore] at h
  cases h

end Entry

end Redis

end HfDfs
