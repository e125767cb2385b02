import HfDfs.Properties.Presence

/-!
# Files that meet in the cache

The key of a cache entry is md5 and file name written one after the other,
so two files can have one mark. Files with different marks keep their
entries apart. The answer for one can still depend on the entry of the
other, through the presence test.
-/

namespace HfDfs

set_option autoImplicit false

open Procedures ScoredSets Zlexcount

/-- The file of a request that reads or writes the file's cache entry. -/
def Request.cachedFile : Request → Option (CString × CString)
  | shareFile _ _ _ md5 filename => some (md5, filename)
  | cancelShareFile _ md5 filename => some (md5, filename)
  | delFile _ _ md5 filename => some (md5, filename)
  | pvShareFile _ md5 filename => some (md5, filename)
  | _ => none

/-- Two stores that differ in the entry of one mark at most. -/
structure AgreeBut (mark : CString) (s t : Store) : Prop where
  tables : t.tables = s.tables
  storage : t.storage = s.storage
  typed : t.redis.Typed ↔ s.redis.Typed
  entry : ∀ k, k ≠ mark → t.redis.entry k = s.redis.entry k
  other : ∀ key, key ≠ FILE_PUBLIC_ZSET → key ≠ FILE_NAME_HASH → t.redis key = s.redis key

/-- The request leaves the entry of the mark alone, and returns the same whatever it is. -/
def Separate (r : Request) (mark : CString) (s t : Store) : Prop :=
  (r.serve s).redis.entry mark = s.redis.entry mark ∧
    (r.handler.run store s).1 = (r.handler.run store t).1

/-- The request does not touch the mark, or writes there what is there already. -/
def keepsEntry (mark : CString) (s : Store) : Request → Prop
  | .shareFile enc _ _ md5 filename => fileid md5 filename = mark →
    s.redis.presence mark enc = 0 → s.redis.publicSet.score mark = some 0 ∧
      (s.tables.shared md5 filename = false → ∀ names, s.redis.hashAt FILE_NAME_HASH = some names →
        names mark = some filename)
  | .cancelShareFile _ md5 filename => fileid md5 filename = mark →
    s.tables.userFileCount shareCountUser ≠ none → s.redis.ranked mark = false
  | .delFile enc _ md5 filename => fileid md5 filename = mark →
    s.tables.userFileCount shareCountUser ≠ none → s.redis.presence mark enc ≠ 1
  | .pvShareFile enc md5 filename => fileid md5 filename = mark →
    ∀ row, s.tables.shareFileList.find? (·.isFile md5 filename) = some row →
      s.redis.presence mark enc ≠ 1 ∧
      (s.redis.presence mark enc = 0 → s.redis.publicSet.score mark = some (row.pv + 1) ∧
        ∀ names, s.redis.hashAt FILE_NAME_HASH = some names → names mark = some filename)
  | _ => True

/-- Redis answers for the file of the request alike in both stores, as far as the request
looks at the answers. -/
def answersAlike (mark : CString) (s t : Store) : Request → Prop
  | .shareFile enc _ _ md5 filename =>
    let p := s.redis.presence (fileid md5 filename) enc
    let q := t.redis.presence (fileid md5 filename) enc
    if s.tables.shared md5 filename then (p = 0 ∨ p = 1 ↔ q = 0 ∨ q = 1)
    else (p = 0 ↔ q = 0) ∧ (p = 1 ↔ q = 1)
  | .cancelShareFile _ md5 filename => fileid md5 filename = mark →
    s.tables.userFileCount shareCountUser ≠ none →
      (s.redis.ranked mark && s.redis.named mark) = (t.redis.ranked mark && t.redis.named mark)
  | .delFile enc user md5 filename => s.tables.fileInfo md5 ≠ none →
    (s.delGoesOn enc user md5 filename ↔ t.delGoesOn enc user md5 filename)
  | .pvShareFile enc md5 filename => s.tables.shared md5 filename = true →
    (s.redis.presence (fileid md5 filename) enc = 0 ↔
      t.redis.presence (fileid md5 filename) enc = 0)
  | _ => True

/-! ## What a request writes -/

section

variable {s : Store} {mark : CString}

/-- Redis was changed at one mark at most. -/
theorem entry_iff_own {r t : Redis} {own : CString} {P : Prop}
    (hother : ∀ k, k ≠ own → t.entry k = r.entry k)
    (hown : own = mark → (t.entry mark = r.entry mark ↔ P)) :
    t.entry mark = r.entry mark ↔ (own = mark → P) := by
  by_cases heq : own = mark
  · rw [hown heq]
    simp [heq]
  · exact iff_of_true (hother mark (Ne.symm heq)) fun h => absurd h heq

theorem entry_shareFile (enc : Encoding) (now user md5 filename : CString) :
    ((Request.shareFile enc now user md5 filename).serve s).redis.entry mark = s.redis.entry mark ↔
      keepsEntry mark s (.shareFile enc now user md5 filename) := by
  rw [Request.serve, Request.handler, run_shareFile, keepsEntry]
  by_cases h0 : s.redis.presence (fileid md5 filename) enc = 0
  · have hz : (s.redis.zsetAt FILE_PUBLIC_ZSET).isSome :=
      Redis.zsetAt_of_presence (show s.redis.presence (fileid md5 filename) enc ≠ -1 by omega)
    rw [if_neg (by omega), if_neg (by omega)]
    cases hshared : s.tables.shared md5 filename with
    | true =>
      refine entry_iff_own (fun k hk => s.redis.entry_rank_other 0 _ hk) ?_
      rintro rfl
      simp [Redis.entry_rank_eq_iff _ _ hz, h0]
    | false =>
      refine entry_iff_own (fun k hk => s.redis.entry_publish_other 0 _ filename hk) ?_
      rintro rfl
      simp [Redis.entry_publish_eq_iff _ _ _ hz, h0]
  · have hkeep : fileid md5 filename = mark → s.redis.presence mark enc = 0 →
        s.redis.publicSet.score mark = some 0 ∧ (s.tables.shared md5 filename = false →
          ∀ names, s.redis.hashAt FILE_NAME_HASH = some names → names mark = some filename) := by
      rintro rfl h
      exact absurd h h0
    refine iff_of_true ?_ hkeep
    split <;> rfl

theorem entry_cancelShareFile (user md5 filename : CString) :
    ((Request.cancelShareFile user md5 filename).serve s).redis.entry mark = s.redis.entry mark ↔
      keepsEntry mark s (.cancelShareFile user md5 filename) := by
  rw [Request.serve, Request.handler, run_cancelShareFile, keepsEntry]
  cases hcount : s.tables.userFileCount shareCountUser with
  | none => simp
  | some n =>
    cases hranked : s.redis.ranked (fileid md5 filename) with
    | false =>
      refine iff_of_true rfl ?_
      rintro rfl -
      exact hranked
    | true =>
      refine entry_iff_own (fun k hk => s.redis.entry_unpublish_other _ hk) ?_
      rintro rfl
      simp [Redis.entry_unpublish_ne _ hranked, hranked]

theorem entry_delFile (enc : Encoding) (user md5 filename : CString) :
    ((Request.delFile enc user md5 filename).serve s).redis.entry mark = s.redis.entry mark ↔
      keepsEntry mark s (.delFile enc user md5 filename) := by
  rw [Request.serve, Request.handler, redis_delFile, keepsEntry]
  split
  · rename_i hcond
    refine entry_iff_own (fun k hk => s.redis.entry_unpublish_other _ hk) ?_
    rintro rfl
    simp [Redis.entry_unpublish_ne _ (Redis.ranked_of_presence hcond.1), hcond]
  · rename_i hcond
    refine iff_of_true rfl ?_
    rintro rfl hcount h1
    exact hcond ⟨h1, hcount⟩

theorem entry_pvShareFile (enc : Encoding) (md5 filename : CString) :
    ((Request.pvShareFile enc md5 filename).serve s).redis.entry mark = s.redis.entry mark ↔
      keepsEntry mark s (.pvShareFile enc md5 filename) := by
  rw [Request.serve, Request.handler, run_pvShareFile, keepsEntry]
  cases hrow : s.tables.shareFileList.find? (·.isFile md5 filename) with
  | none => simp
  | some row =>
    simp only [Option.some.injEq, forall_eq']
    by_cases h1 : s.redis.presence (fileid md5 filename) enc = 1
    · have hz : (s.redis.zsetAt FILE_PUBLIC_ZSET).isSome :=
        Redis.zsetAt_of_presence (show s.redis.presence (fileid md5 filename) enc ≠ -1 by omega)
      rw [if_pos h1]
      refine entry_iff_own (fun k hk => s.redis.entry_download_other _ hk) ?_
      rintro rfl
      exact iff_of_false (Redis.entry_download_ne _ hz) fun h => h.1 h1
    · by_cases h0 : s.redis.presence (fileid md5 filename) enc = 0
      · have hz : (s.redis.zsetAt FILE_PUBLIC_ZSET).isSome :=
          Redis.zsetAt_of_presence (show s.redis.presence (fileid md5 filename) enc ≠ -1 by omega)
        rw [if_neg h1, if_pos h0]
        refine entry_iff_own (fun k hk => s.redis.entry_publish_other _ _ filename hk) ?_
        rintro rfl
        simp [Redis.entry_publish_eq_iff _ _ _ hz, h0]
      · rw [if_neg h1, if_neg h0]
        refine iff_of_true rfl ?_
        rintro rfl
        exact ⟨h1, fun h => absurd h h0⟩

end

/-! ## What a request returns -/

section

variable {s t : Store} {mark : CString}

theorem result_shareFile (enc : Encoding) (now user md5 filename : CString) (s : Store) :
    ((shareFile enc now user md5 filename).run store s).1 =
      if s.redis.presence (fileid md5 filename) enc = 1 then -2
      else if s.redis.presence (fileid md5 filename) enc ≠ 0 then -1
      else if s.tables.shared md5 filename then -2 else 0 := by
  rw [run_shareFile]
  split
  · rfl
  split
  · rfl
  split <;> rfl

theorem returns_shareFile (h : AgreeBut mark s t) (enc : Encoding) (now user md5 filename : CString) :
    ((shareFile enc now user md5 filename).run store s).1 =
        ((shareFile enc now user md5 filename).run store t).1 ↔
      answersAlike mark s t (.shareFile enc now user md5 filename) := by
  rw [result_shareFile, result_shareFile, h.tables, answersAlike]
  generalize s.redis.presence (fileid md5 filename) enc = p
  generalize t.redis.presence (fileid md5 filename) enc = q
  by_cases hp1 : p = 1 <;> by_cases hq1 : q = 1 <;> by_cases hp0 : p = 0 <;>
    by_cases hq0 : q = 0 <;> cases s.tables.shared md5 filename <;> simp_all

theorem result_cancelShareFile (user md5 filename : CString) (s : Store) :
    ((cancelShareFile user md5 filename).run store s).1 =
      if s.tables.userFileCount shareCountUser ≠ none ∧
        (s.redis.ranked (fileid md5 filename) && s.redis.named (fileid md5 filename)) = true
      then 0 else -1 := by
  rw [run_cancelShareFile]
  cases s.tables.userFileCount shareCountUser with
  | none => rfl
  | some n => simp

theorem returns_cancelShareFile (h : AgreeBut mark s t) (user md5 filename : CString) :
    ((cancelShareFile user md5 filename).run store s).1 =
        ((cancelShareFile user md5 filename).run store t).1 ↔
      answersAlike mark s t (.cancelShareFile user md5 filename) := by
  rw [result_cancelShareFile, result_cancelShareFile, h.tables, answersAlike]
  cases hcount : s.tables.userFileCount shareCountUser with
  | none => simp
  | some n =>
    by_cases hmark : fileid md5 filename = mark
    · subst hmark
      cases hs : s.redis.ranked (fileid md5 filename) && s.redis.named (fileid md5 filename) <;>
        cases ht : t.redis.ranked (fileid md5 filename) && t.redis.named (fileid md5 filename) <;>
        simp
    · have hentry := h.entry _ hmark
      have hranked : t.redis.ranked (fileid md5 filename) = s.redis.ranked (fileid md5 filename) :=
        congrArg (fun e => e.1.isSome) hentry
      have hnamed : t.redis.named (fileid md5 filename) = s.redis.named (fileid md5 filename) :=
        congrArg (fun e => e.2.isSome) hentry
      exact iff_of_true (by rw [hranked, hnamed]) fun heq => absurd heq hmark

theorem returns_delFile (h : AgreeBut mark s t) (enc : Encoding) (user md5 filename : CString) :
    ((delFile enc user md5 filename).run store s).1 =
        ((delFile enc user md5 filename).run store t).1 ↔
      answersAlike mark s t (.delFile enc user md5 filename) := by
  rw [result_delFile, result_delFile, h.tables, answersAlike]
  by_cases hs : s.delGoesOn enc user md5 filename <;>
    by_cases ht : t.delGoesOn enc user md5 filename <;>
    by_cases hinfo : s.tables.fileInfo md5 = none <;> simp [hs, ht, hinfo]

theorem returns_pvShareFile (h : AgreeBut mark s t) (enc : Encoding) (md5 filename : CString) :
    ((pvShareFile enc md5 filename).run store s).1 =
        ((pvShareFile enc md5 filename).run store t).1 ↔
      answersAlike mark s t (.pvShareFile enc md5 filename) := by
  rw [result_pvShareFile, result_pvShareFile, h.tables, answersAlike]
  by_cases hs : s.redis.presence (fileid md5 filename) enc = 0 <;>
    by_cases ht : t.redis.presence (fileid md5 filename) enc = 0 <;>
    cases s.tables.shared md5 filename <;> simp [hs, ht]

end

/-! ## Two files -/

/-- For any two files, and any two stores that differ in what is kept for the second: a request
on the first leaves that entry alone and returns the same exactly when it meets the two
conditions. -/
theorem separate_iff {r : Request} {md5 filename md5' filename' : CString}
    (hr : r.cachedFile = some (md5, filename)) {s t : Store}
    (h : AgreeBut (fileid md5' filename') s t) :
    Separate r (fileid md5' filename') s t ↔
      keepsEntry (fileid md5' filename') s r ∧ answersAlike (fileid md5' filename') s t r := by
  cases r with
  | shareFile enc now user md5 filename =>
    exact and_congr (entry_shareFile enc now user md5 filename)
      (returns_shareFile h enc now user md5 filename)
  | cancelShareFile user md5 filename =>
    exact and_congr (entry_cancelShareFile user md5 filename)
      (returns_cancelShareFile h user md5 filename)
  | delFile enc user md5 filename =>
    exact and_congr (entry_delFile enc user md5 filename)
      (returns_delFile h enc user md5 filename)
  | pvShareFile enc md5 filename =>
    exact and_congr (entry_pvShareFile enc md5 filename) (returns_pvShareFile h enc md5 filename)
  | _ => cases hr

/-! Different marks are enough where the presence test is exact, as it is before any download. -/

theorem presence_eq_of_ordered {mark own : CString} {s t : Store} (h : AgreeBut mark s t)
    (hne : own ≠ mark) {z w : ScoredSet CString}
    (hz : s.redis.zsetAt FILE_PUBLIC_ZSET = some z) (hw : t.redis.zsetAt FILE_PUBLIC_ZSET = some w)
    (hzo : (z.entries.map Entry.member).Pairwise (· < ·))
    (hwo : (w.entries.map Entry.member).Pairwise (· < ·)) (enc : Encoding) :
    s.redis.presence own enc = t.redis.presence own enc := by
  have hscore := congrArg Prod.fst (h.entry own hne)
  simp only [Redis.entry, Redis.publicSet, hz, hw, Option.getD_some] at hscore
  have hmem : own ∈ w.entries.map Entry.member ↔ own ∈ z.entries.map Entry.member := by
    rw [← not_iff_not, ← ScoredSet.score_eq_none_iff, ← ScoredSet.score_eq_none_iff, hscore]
  rw [Redis.presence, Redis.presence, hz, hw]
  simp only [(zlexcount_eq_iff z own enc).mpr (findable_of_ordered hzo own enc),
    (zlexcount_eq_iff w own enc).mpr (findable_of_ordered hwo own enc), hmem]

theorem separate_of_ordered {r : Request} {md5 filename mark : CString}
    (hr : r.cachedFile = some (md5, filename)) (hne : fileid md5 filename ≠ mark) {s t : Store}
    (h : AgreeBut mark s t) {z w : ScoredSet CString}
    (hz : s.redis.zsetAt FILE_PUBLIC_ZSET = some z) (hw : t.redis.zsetAt FILE_PUBLIC_ZSET = some w)
    (hzo : (z.entries.map Entry.member).Pairwise (· < ·))
    (hwo : (w.entries.map Entry.member).Pairwise (· < ·)) : Separate r mark s t := by
  have hpresence := presence_eq_of_ordered h hne hz hw hzo hwo
  cases r with
  | shareFile enc now user md5 filename =>
    obtain ⟨rfl, rfl⟩ := Prod.mk.inj (Option.some.inj hr)
    refine ⟨(entry_shareFile enc now user _ _).mpr fun heq => absurd heq hne,
      (returns_shareFile h enc now user _ _).mpr ?_⟩
    simp [answersAlike, hpresence]
  | cancelShareFile user md5 filename =>
    obtain ⟨rfl, rfl⟩ := Prod.mk.inj (Option.some.inj hr)
    exact ⟨(entry_cancelShareFile user _ _).mpr fun heq => absurd heq hne,
      (returns_cancelShareFile h user _ _).mpr fun heq => absurd heq hne⟩
  | delFile enc user md5 filename =>
    obtain ⟨rfl, rfl⟩ := Prod.mk.inj (Option.some.inj hr)
    refine ⟨(entry_delFile enc user _ _).mpr fun heq => absurd heq hne,
      (returns_delFile h enc user _ _).mpr fun _ => ?_⟩
    simp [Store.delGoesOn, h.tables, hpresence]
  | pvShareFile enc md5 filename =>
    obtain ⟨rfl, rfl⟩ := Prod.mk.inj (Option.some.inj hr)
    refine ⟨(entry_pvShareFile enc _ _).mpr fun heq => absurd heq hne,
      (returns_pvShareFile h enc _ _).mpr fun _ => ?_⟩
    rw [hpresence]
  | _ => cases hr

/-- Redis knows one file, `f` with md5 `m`. -/
def cachedStore : Store :=
  { Store.empty with redis := Redis.empty.publish 0 (fileid (bytes "m") (bytes "f")) (bytes "f") }

theorem agreeBut_cachedStore :
    AgreeBut (fileid (bytes "m") (bytes "f")) cachedStore Store.empty where
  tables := rfl
  storage := rfl
  typed := iff_of_true Redis.typed_empty (Redis.typed_publish Redis.typed_empty _ _ _)
  entry _ hk := (Redis.entry_publish_other Redis.empty 0 _ _ hk).symm
  other _ hz hf := ((Redis.setName_other _ _ _ hf).trans (Redis.rank_other _ _ _ hz)).symm

theorem separate_other_mark :
    Separate (.shareFile .ziplist (bytes "t") (bytes "u") (bytes "n") (bytes "g"))
      (fileid (bytes "m") (bytes "f")) cachedStore Store.empty :=
  (separate_iff rfl agreeBut_cachedStore).mpr
    ⟨fun h => absurd h (by decide), ⟨by decide, by decide⟩⟩

/-- The user `v` shares the file `bc` with md5 `a`. -/
def sharedBc : List Request :=
  [.upload (bytes "t") (bytes "v") (bytes "bc") (bytes "a") 1 (bytes "id") (bytes "url"),
    .shareFile .ziplist (bytes "t") (bytes "v") (bytes "a") (bytes "bc")]

theorem AgreeBut.refl (mark : CString) (s : Store) : AgreeBut mark s s :=
  ⟨rfl, rfl, Iff.rfl, fun _ _ => rfl, fun _ _ _ => rfl⟩

/-- Cancelling a share of the file `c` with md5 `ab` removes the entry of the other file. -/
theorem not_separate_same_text :
    Runs (fun _ _ => True) Store.empty sharedBc ∧
    (bytes "ab", bytes "c") ≠ (bytes "a", bytes "bc") ∧
    AgreeBut (fileid (bytes "a") (bytes "bc")) (serveAll Store.empty sharedBc)
      (serveAll Store.empty sharedBc) ∧
    ¬ Separate (.cancelShareFile (bytes "u") (bytes "ab") (bytes "c"))
      (fileid (bytes "a") (bytes "bc")) (serveAll Store.empty sharedBc)
      (serveAll Store.empty sharedBc) := by
  refine ⟨⟨Finset.notMem_empty _, trivial, trivial, trivial, trivial⟩, by decide, .refl _ _,
    fun h => ?_⟩
  have hentry := h.1
  revert hentry
  decide

end HfDfs
