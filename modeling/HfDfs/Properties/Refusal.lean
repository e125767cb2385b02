import HfDfs.Properties.Deletion

/-!
# What a refused request has done already

A handler that returns another code than 0 should have left the tables of
the files alone. Sharing, saving and adding a file test first and write
afterwards. Cancelling, deleting and counting a download test in between,
so a refusal comes after some of the updates.
-/

namespace HfDfs

set_option autoImplicit false

open Procedures Tallies Zlexcount

/-- `file_info`, `user_file_list`, `user_file_count` and `share_file_list` are the same. -/
structure SameRecords (t t' : Tables) : Prop where
  fileInfo : t'.fileInfo = t.fileInfo
  userFileList : t'.userFileList = t.userFileList
  userFileCount : t'.userFileCount = t.userFileCount
  shareFileList : t'.shareFileList = t.shareFileList

theorem SameRecords.refl (t : Tables) : SameRecords t t := ⟨rfl, rfl, rfl, rfl⟩

def RefusedUnchanged (r : Request) (s : Store) : Prop :=
  (r.handler.run store s).1 ≠ 0 → SameRecords s.tables (r.serve s).tables

/-- No update comes before the test that refuses the request. -/
def refusalOk : Request → Store → Prop
  | .cancelShareFile user md5 filename, s =>
    (s.tables.userFileCount shareCountUser = none → ∀ r ∈ s.tables.userFileList,
      r.is user md5 filename = true → r.sharedStatus = 0) ∧
    (s.tables.userFileCount shareCountUser ≠ none →
      s.redis.ranked (fileid md5 filename) = true ∧ s.redis.named (fileid md5 filename) = true)
  | .delFile enc user md5 filename, s =>
    (s.delShared enc user md5 filename → s.tables.userFileCount shareCountUser = none →
      ∀ r ∈ s.tables.shareFileList, r.is user md5 filename = false) ∧
    (s.delShared enc user md5 filename → s.tables.userFileCount shareCountUser ≠ none →
      s.tables.userFileCount user ≠ none) ∧
    (s.delGoesOn enc user md5 filename → s.tables.fileInfo md5 ≠ none)
  | .pvShareFile enc md5 filename, s =>
    s.tables.shared md5 filename = true → s.redis.presence (fileid md5 filename) enc = 0
  | _, _ => True

section

variable {r : Request} {s : Store}

theorem refusedUnchanged_of_accepted (h : (r.handler.run store s).1 = 0) : RefusedUnchanged r s :=
  fun hne => absurd h hne

theorem refusedUnchanged_of_same (h : SameRecords s.tables (r.serve s).tables) :
    RefusedUnchanged r s := fun _ => h

theorem refusedUnchanged_of_run {ret : Int} {t : Store} (hrun : r.handler.run store s = (ret, t))
    (h : ret = 0 ∨ SameRecords s.tables t.tables) : RefusedUnchanged r s := by
  rw [RefusedUnchanged, Request.serve, hrun]
  intro hne
  exact h.resolve_left hne

theorem refusedUnchanged_iff_of_refused (h : (r.handler.run store s).1 ≠ 0) :
    RefusedUnchanged r s ↔ SameRecords s.tables (r.serve s).tables :=
  ⟨fun hr => hr h, fun hsame _ => hsame⟩

end

/-- An update of a column changes nothing exactly when every row it matches has the value. -/
theorem map_ite_eq_self_iff {ρ : Type} {l : List ρ} {p : ρ → Bool} {f : ρ → ρ} :
    l.map (fun r => if p r then f r else r) = l ↔ ∀ r ∈ l, p r = true → f r = r := by
  constructor
  · intro h r hr hp
    have heq := List.map_inj_left.mp (h.trans (List.map_id l).symm) r hr
    simpa [hp] using heq
  · intro h
    refine (List.map_congr_left fun r hr => ?_).trans (List.map_id l)
    split
    · rename_i hp
      exact h r hr hp
    · rfl

section

variable (s : Store) (user md5 filename : CString) (enc : Encoding)

theorem refusedUnchanged_cancelShareFile :
    RefusedUnchanged (.cancelShareFile user md5 filename) s ↔
      refusalOk (.cancelShareFile user md5 filename) s := by
  have hrun := run_cancelShareFile user md5 filename s
  cases hcount : s.tables.userFileCount shareCountUser with
  | none =>
    rw [hcount] at hrun
    have hne : ((Request.cancelShareFile user md5 filename).handler.run store s).1 ≠ 0 := by
      rw [Request.handler, hrun]
      exact (by decide : (-1 : Int) ≠ 0)
    rw [refusedUnchanged_iff_of_refused hne, Request.serve, Request.handler, hrun]
    have hrows := map_ite_eq_self_iff (l := s.tables.userFileList)
      (p := (·.is user md5 filename)) (f := fun r => { r with sharedStatus := 0 })
    constructor
    · intro hsame
      refine ⟨fun _ r hr his => ?_, fun hne => absurd hcount hne⟩
      have hrow := hrows.mp hsame.userFileList r hr his
      exact (congrArg UserFile.sharedStatus hrow).symm
    · rintro ⟨hzero, -⟩
      refine ⟨rfl, hrows.mpr fun r hr his => ?_, rfl, rfl⟩
      rw [← hzero hcount r hr his]
  | some n =>
    rw [hcount] at hrun
    have hok : refusalOk (.cancelShareFile user md5 filename) s ↔
        (s.redis.ranked (fileid md5 filename) && s.redis.named (fileid md5 filename)) = true := by
      simp [refusalOk, hcount]
    rw [hok]
    cases hboth : s.redis.ranked (fileid md5 filename) && s.redis.named (fileid md5 filename) with
    | true =>
      refine iff_of_true (refusedUnchanged_of_accepted ?_) rfl
      rw [Request.handler, hrun, hboth]
      rfl
    | false =>
      refine iff_of_false (fun h => ?_) Bool.false_ne_true
      have hne : ((Request.cancelShareFile user md5 filename).handler.run store s).1 ≠ 0 := by
        rw [Request.handler, hrun, hboth]
        exact (by decide : (-1 : Int) ≠ 0)
      rw [refusedUnchanged_iff_of_refused hne, Request.serve, Request.handler, hrun] at h
      refine lower_ne_self (t := s.tables.userFileCount) (k := shareCountUser) ?_ h.userFileCount
      rw [hcount]
      exact Option.some_ne_none n

theorem refusedUnchanged_pvShareFile :
    RefusedUnchanged (.pvShareFile enc md5 filename) s ↔
      refusalOk (.pvShareFile enc md5 filename) s := by
  have hresult := result_pvShareFile enc md5 filename s
  have hrun := run_pvShareFile enc md5 filename s
  cases hrow : s.tables.shareFileList.find? (·.isFile md5 filename) with
  | none =>
    rw [hrow] at hrun
    have hshared : s.tables.shared md5 filename = false := by simpa [Tables.shared] using hrow
    refine iff_of_true (refusedUnchanged_of_same ?_) fun h => ?_
    · rw [Request.serve, Request.handler, hrun]
      exact .refl _
    · rw [hshared] at h
      cases h
  | some row =>
    rw [hrow] at hrun
    have hmem := List.mem_of_find?_eq_some hrow
    have his := List.find?_some hrow
    have hshared : s.tables.shared md5 filename = true := List.any_eq_true.mpr ⟨row, hmem, his⟩
    by_cases h0 : s.redis.presence (fileid md5 filename) enc = 0
    · refine iff_of_true (refusedUnchanged_of_accepted ?_) fun _ => h0
      rw [Request.handler, hresult, if_pos ⟨hshared, h0⟩]
    · refine iff_of_false (fun h => ?_) fun h => h0 (h hshared)
      rw [refusedUnchanged_iff_of_refused
          (by rw [Request.handler, hresult, if_neg fun h => h0 h.2]; decide),
        Request.serve, Request.handler, hrun] at h
      -- the row found has been given the next number of downloads
      have heq := map_ite_eq_self_iff.mp h.shareFileList row hmem his
      have hpv : row.pv + 1 = row.pv := congrArg ShareFile.pv heq
      omega

/-- Once the user's count has been lowered, the counts are not what they were. -/
theorem lower_lowerCounter_ne {counts : CString → Option Int} (shared : Prop) [Decidable shared]
    (h : counts user ≠ none) :
    lower (if shared then lowerCounter counts else counts) user ≠ counts := by
  intro heq
  have hsome : (if shared then lowerCounter counts else counts) user ≠ none := by
    split
    · rwa [ne_eq, lowerCounter_eq_none]
    · exact h
  have hlower := getD_lower_self hsome
  have hle : ((if shared then lowerCounter counts else counts) user).getD 0 ≤
      (counts user).getD 0 := by
    split
    · exact getD_lowerCounter_le user counts
    · exact le_rfl
  rw [heq] at hlower
  omega

theorem filter_not_eq_self_iff {ρ : Type} {rows : List ρ} {p : ρ → Bool} :
    rows.filter (fun r => !p r) = rows ↔ ∀ r ∈ rows, p r = false := by
  rw [List.filter_eq_self]
  simp

theorem refusedUnchanged_delFile :
    RefusedUnchanged (.delFile enc user md5 filename) s ↔
      refusalOk (.delFile enc user md5 filename) s := by
  have hresult := result_delFile user md5 filename s enc
  have hcounts := userFileCount_delFile user md5 filename s enc
  have hinfos := fileInfo_delFile user md5 filename s enc
  have hrows := userFileList_delFile user md5 filename s enc
  have hshares := shareFileList_delFile user md5 filename s enc
  by_cases hgoes : s.delGoesOn enc user md5 filename
  · obtain ⟨hanswer, hcounter, hcount⟩ := Store.delGoesOn_iff.mp hgoes
    by_cases hinfo : s.tables.fileInfo md5 = none
    · refine iff_of_false (fun h => ?_) fun hok => hok.2.2 hgoes hinfo
      rw [refusedUnchanged_iff_of_refused
        (by rw [Request.handler, hresult, if_neg fun h => h.2 hinfo]; decide)] at h
      have hsame := hcounts.symm.trans h.userFileCount
      rw [if_pos hgoes] at hsame
      exact lower_lowerCounter_ne user _ hcount hsame
    · refine iff_of_true (refusedUnchanged_of_accepted ?_)
        ⟨fun hd hnone => absurd hnone (hcounter hd), fun _ _ => hcount, fun _ => hinfo⟩
      rw [Request.handler, hresult, if_pos ⟨hgoes, hinfo⟩]
  · rw [refusedUnchanged_iff_of_refused
      (by rw [Request.handler, hresult, if_neg fun h => hgoes h.1]; decide)]
    rw [if_neg hgoes] at hcounts hinfos hrows
    by_cases hd : s.delShared enc user md5 filename
    · rw [if_pos hd] at hcounts hshares
      by_cases hcounter : s.tables.userFileCount shareCountUser = none
      · rw [lowerCounter_of_none hcounter] at hcounts
        constructor
        · intro hsame
          exact ⟨fun _ _ => filter_not_eq_self_iff.mp (hshares.symm.trans hsame.shareFileList),
            fun _ hne => absurd hcounter hne, fun h => absurd h hgoes⟩
        · rintro ⟨hnone, -, -⟩
          exact ⟨hinfos, hrows, hcounts,
            hshares.trans (filter_not_eq_self_iff.mpr (hnone hd hcounter))⟩
      · -- the counter has been lowered before the user's count was missed
        refine iff_of_false (fun hsame => ?_) fun hok => hgoes ?_
        · obtain ⟨n, hn⟩ := Option.ne_none_iff_exists'.mp hcounter
          have hself := congrFun (hcounts.symm.trans hsame.userFileCount) shareCountUser
          rw [lowerCounter_self, hn, Option.map_some, Option.some.injEq] at hself
          omega
        · refine Store.delGoesOn_iff.mpr ⟨?_, fun _ => hcounter, hok.2.1 hd hcounter⟩
          rcases hd with h1 | ⟨h0, -⟩
          · exact Or.inl h1
          · exact Or.inr h0
    · rw [if_neg hd] at hcounts hshares
      exact iff_of_true ⟨hinfos, hrows, hcounts, hshares⟩
        ⟨fun h => absurd h hd, fun h => absurd h hd, fun h => absurd h hgoes⟩

theorem refusedUnchanged_upload (now : CString) (size : Int) (fileid url : CString) :
    RefusedUnchanged (.upload now user filename md5 size fileid url) s := by
  have hrun := run_upload now user filename md5 size fileid url s
  rw [run_storeFileinfoToMysql] at hrun
  cases hinfo : s.tables.fileInfo md5 with
  | none =>
    simp only [hinfo] at hrun
    exact refusedUnchanged_of_run hrun (Or.inl rfl)
  | some info =>
    simp only [hinfo] at hrun
    exact refusedUnchanged_of_run hrun (Or.inr (.refl _))

theorem refusedUnchanged_dealMd5 (now : CString) :
    RefusedUnchanged (.dealMd5 now user md5 filename) s := by
  have hrun := run_dealMd5 now user md5 filename s
  cases hinfo : s.tables.fileInfo md5 with
  | none =>
    rw [hinfo] at hrun
    exact refusedUnchanged_of_run hrun (Or.inr (.refl _))
  | some info =>
    cases hholds : s.tables.holds user md5 filename with
    | true =>
      rw [hinfo, hholds] at hrun
      exact refusedUnchanged_of_run hrun (Or.inr (.refl _))
    | false =>
      rw [hinfo, hholds] at hrun
      exact refusedUnchanged_of_run hrun (Or.inl rfl)

theorem refusedUnchanged_saveFile (now : CString) :
    RefusedUnchanged (.saveFile now user md5 filename) s := by
  have hrun := run_saveFile now user md5 filename s
  cases hholds : s.tables.holds user md5 filename with
  | true =>
    rw [hholds] at hrun
    exact refusedUnchanged_of_run hrun (Or.inr (.refl _))
  | false =>
    cases hinfo : s.tables.fileInfo md5 with
    | none =>
      rw [hinfo, hholds] at hrun
      exact refusedUnchanged_of_run hrun (Or.inr (.refl _))
    | some info =>
      rw [hinfo, hholds] at hrun
      exact refusedUnchanged_of_run hrun (Or.inl rfl)

theorem refusedUnchanged_shareFile (now : CString) :
    RefusedUnchanged (.shareFile enc now user md5 filename) s := by
  have hrun := run_shareFile enc now user md5 filename s
  split at hrun
  · exact refusedUnchanged_of_run hrun (Or.inr (.refl _))
  split at hrun
  · exact refusedUnchanged_of_run hrun (Or.inr (.refl _))
  split at hrun
  · exact refusedUnchanged_of_run hrun (Or.inr (.refl _))
  · exact refusedUnchanged_of_run hrun (Or.inl rfl)

theorem refusedUnchanged_pvFile : RefusedUnchanged (.pvFile user md5 filename) s := by
  have hrun := run_pvFile user md5 filename s
  cases hrow : s.tables.userFileList.find? (·.is user md5 filename) with
  | none =>
    rw [hrow] at hrun
    exact refusedUnchanged_of_run hrun (Or.inr (.refl _))
  | some row =>
    rw [hrow] at hrun
    exact refusedUnchanged_of_run hrun (Or.inl rfl)

/-- The table of users is not among the records. -/
theorem refusedUnchanged_userRegister (now nickName pwd tel email : CString) :
    RefusedUnchanged (.userRegister now user nickName pwd tel email) s := by
  have hrun := run_userRegister now user nickName pwd tel email s
  split at hrun
  · exact refusedUnchanged_of_run hrun (Or.inr (.refl _))
  split at hrun
  · exact refusedUnchanged_of_run hrun (Or.inr (.refl _))
  · exact refusedUnchanged_of_run hrun (Or.inl rfl)

theorem refusedUnchanged_login (foreign : ResultOne) (pwd : CString) (token : Option CString) :
    RefusedUnchanged (.login foreign user pwd token) s := by
  apply refusedUnchanged_of_same
  simp only [Request.serve, Request.handler, Procedure.run_bind, Procedure.pure_eq,
    Procedure.run_done]
  obtain hs | ⟨value, hs⟩ := run_login foreign user pwd token s
  · rw [hs]
    exact .refl _
  · rw [hs]
    exact .refl _

theorem refusedUnchanged_getRankingFilelist (start count : Int) :
    RefusedUnchanged (.getRankingFilelist start count) s := by
  apply refusedUnchanged_of_same
  simp only [Request.serve, Request.handler, Procedure.run_bind, Procedure.pure_eq,
    Procedure.run_done, run_getRankingFilelist]
  exact .refl _

end

/-- For every request and every state: a refusal leaves the records alone exactly when the
condition holds. -/
theorem refusedUnchanged_iff (r : Request) (s : Store) : RefusedUnchanged r s ↔ refusalOk r s := by
  cases r with
  | upload now user filename md5 size fileid url =>
    exact iff_of_true (refusedUnchanged_upload s user md5 filename now size fileid url) trivial
  | dealMd5 now user md5 filename =>
    exact iff_of_true (refusedUnchanged_dealMd5 s user md5 filename now) trivial
  | saveFile now user md5 filename =>
    exact iff_of_true (refusedUnchanged_saveFile s user md5 filename now) trivial
  | shareFile enc now user md5 filename =>
    exact iff_of_true (refusedUnchanged_shareFile s user md5 filename enc now) trivial
  | cancelShareFile user md5 filename => exact refusedUnchanged_cancelShareFile s user md5 filename
  | delFile enc user md5 filename => exact refusedUnchanged_delFile s user md5 filename enc
  | pvFile user md5 filename =>
    exact iff_of_true (refusedUnchanged_pvFile s user md5 filename) trivial
  | pvShareFile enc md5 filename => exact refusedUnchanged_pvShareFile s md5 filename enc
  | getRankingFilelist start count =>
    exact iff_of_true (refusedUnchanged_getRankingFilelist s start count) trivial
  | userRegister now user nickName pwd tel email =>
    exact iff_of_true (refusedUnchanged_userRegister s user now nickName pwd tel email) trivial
  | login foreign user pwd token =>
    exact iff_of_true (refusedUnchanged_login s user foreign pwd token) trivial

def fileOfUShared : List Request :=
  [.upload (bytes "t") (bytes "u") (bytes "f") (bytes "m") 1 (bytes "id") (bytes "url"),
    .shareFile .ziplist (bytes "t") (bytes "u") (bytes "m") (bytes "f")]

/-- A download of a shared file is counted and reported as failed. -/
theorem not_refusedUnchanged_download :
    Runs (fun _ _ => True) Store.empty fileOfUShared ∧
    ¬ RefusedUnchanged (.pvShareFile .ziplist (bytes "m") (bytes "f"))
      (serveAll Store.empty fileOfUShared) := by
  refine ⟨⟨Finset.notMem_empty _, trivial, trivial, trivial, trivial⟩, fun h => ?_⟩
  have hshares := (h (by decide)).shareFileList
  revert hshares
  decide

end HfDfs
