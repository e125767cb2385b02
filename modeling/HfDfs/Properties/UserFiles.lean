import HfDfs.Properties.RefCount

/-!
# The file list of a user and the number beside it

A request changes `user_file_list` in one of three ways: columns that do
not identify a row, one row more, or the rows of one deletion. The number
of files in `user_file_count` goes with it, and so does the uniqueness of
the rows, as long as a deletion names the one row it removes and an upload
is of a file that its user does not have.
-/

namespace HfDfs

set_option autoImplicit false

open Procedures Tallies Zlexcount

inductive ListChange where
  | kept
  | added (row : UserFile)
  | deleted (user md5 filename : CString)

def Request.listChange (s : Store) : Request → ListChange
  | .upload now user filename md5 _ _ _ =>
    if s.tables.fileInfo md5 = none then .added ⟨user, md5, now, filename, 0, 0⟩ else .kept
  | .dealMd5 now user md5 filename | .saveFile now user md5 filename =>
    if s.tables.fileInfo md5 ≠ none ∧ s.tables.holds user md5 filename = false
    then .added ⟨user, md5, now, filename, 0, 0⟩ else .kept
  | .delFile enc user md5 filename =>
    if s.delGoesOn enc user md5 filename then .deleted user md5 filename else .kept
  | _ => .kept

/-- What the change means for the rows and, but for the reserved name, for the numbers. -/
def ListChange.Made (t t' : Tables) : ListChange → Prop
  | .kept => (∃ f : UserFile → UserFile,
      (∀ x, (f x).user = x.user ∧ (f x).md5 = x.md5 ∧ (f x).filename = x.filename) ∧
      t'.userFileList = t.userFileList.map f) ∧
    ∀ u, u ≠ shareCountUser → t'.userFileCount u = t.userFileCount u
  | .added row => t'.userFileList = t.userFileList ++ [row] ∧
    t'.userFileCount = raise t.userFileCount row.user
  | .deleted user md5 filename =>
    t'.userFileList = t.userFileList.filter (fun x => !x.is user md5 filename) ∧
    ∀ u, u ≠ shareCountUser → t'.userFileCount u = lower t.userFileCount user u

theorem made_kept {t t' : Tables} (hrows : t'.userFileList = t.userFileList)
    (hcounts : ∀ u, u ≠ shareCountUser → t'.userFileCount u = t.userFileCount u) :
    ListChange.kept.Made t t' :=
  ⟨⟨id, fun _ => ⟨rfl, rfl, rfl⟩, by rw [hrows, List.map_id]⟩, hcounts⟩

theorem made_kept_map {t t' : Tables} (p : UserFile → Bool) (f : UserFile → UserFile)
    (hf : ∀ x, (f x).user = x.user ∧ (f x).md5 = x.md5 ∧ (f x).filename = x.filename)
    (hrows : t'.userFileList = t.userFileList.map fun x => if p x then f x else x)
    (hcounts : ∀ u, u ≠ shareCountUser → t'.userFileCount u = t.userFileCount u) :
    ListChange.kept.Made t t' := by
  refine ⟨⟨_, fun x => ?_, hrows⟩, hcounts⟩
  split
  · exact hf x
  · exact ⟨rfl, rfl, rfl⟩

theorem made_gained {now user md5 filename : CString} {s t : Store}
    (h : Gained now user md5 filename s t) :
    ((Request.dealMd5 now user md5 filename).listChange s).Made s.tables t.tables := by
  rw [Request.listChange]
  rcases h with ⟨hnothing, rfl⟩ | ⟨info, hinfo, hholds, rfl⟩
  · rw [if_neg]
    · exact made_kept rfl fun _ _ => rfl
    · rcases hnothing with hnone | hheld
      · simp [hnone]
      · simp [hheld]
  · rw [if_pos ⟨Option.ne_none_iff_exists'.mpr ⟨info, hinfo⟩, hholds⟩]
    exact ⟨rfl, rfl⟩

theorem made_delFile (enc : Encoding) (user md5 filename : CString) (s : Store) :
    ((Request.delFile enc user md5 filename).listChange s).Made s.tables
      (Request.delFile enc user md5 filename |>.serve s).tables := by
  have hrows := userFileList_delFile user md5 filename s enc
  have hcounts := userFileCount_delFile user md5 filename s enc
  have hcounter : ∀ u, u ≠ shareCountUser →
      (if s.delShared enc user md5 filename then lowerCounter s.tables.userFileCount
        else s.tables.userFileCount) u = s.tables.userFileCount u := by
    intro u hu
    split
    · simp [lowerCounter, hu]
    · rfl
  rw [Request.listChange, Request.serve, Request.handler]
  by_cases hgoes : s.delGoesOn enc user md5 filename
  · rw [if_pos hgoes] at hrows hcounts ⊢
    refine ⟨hrows, fun u hu => ?_⟩
    rw [hcounts]
    by_cases huser : u = user
    · subst huser
      simp only [lower, Function.update_self, hcounter u hu]
    · rw [lower_of_ne _ huser, lower_of_ne _ huser, hcounter u hu]
  · rw [if_neg hgoes] at hrows hcounts ⊢
    refine made_kept hrows fun u hu => ?_
    rw [hcounts, hcounter u hu]

/-- Every request makes the change it is said to make. -/
theorem made_serve (r : Request) (s : Store) :
    (r.listChange s).Made s.tables (r.serve s).tables := by
  cases r with
  | upload now user filename md5 size fileid url =>
    rw [Request.serve, Request.handler, run_upload, run_storeFileinfoToMysql, Request.listChange]
    cases hinfo : s.tables.fileInfo md5 with
    | none => exact ⟨rfl, rfl⟩
    | some info => exact made_kept rfl fun _ _ => rfl
  | dealMd5 now user md5 filename => exact made_gained (gained_dealMd5 now user md5 filename s)
  | saveFile now user md5 filename => exact made_gained (gained_saveFile now user md5 filename s)
  | shareFile enc now user md5 filename =>
    rw [Request.serve, Request.handler, run_shareFile]
    split
    · exact made_kept rfl fun _ _ => rfl
    split
    · exact made_kept rfl fun _ _ => rfl
    split
    · exact made_kept rfl fun _ _ => rfl
    · exact made_kept_map (·.is user md5 filename) (fun x => { x with sharedStatus := 1 })
        (fun _ => ⟨rfl, rfl, rfl⟩) rfl fun u hu => raise_of_ne _ hu
  | cancelShareFile user md5 filename =>
    rw [Request.serve, Request.handler, run_cancelShareFile]
    cases s.tables.userFileCount shareCountUser with
    | none =>
      exact made_kept_map (·.is user md5 filename) (fun x => { x with sharedStatus := 0 })
        (fun _ => ⟨rfl, rfl, rfl⟩) rfl fun _ _ => rfl
    | some n =>
      exact made_kept_map (·.is user md5 filename) (fun x => { x with sharedStatus := 0 })
        (fun _ => ⟨rfl, rfl, rfl⟩) rfl fun u hu => lower_of_ne _ hu
  | delFile enc user md5 filename => exact made_delFile enc user md5 filename s
  | pvFile user md5 filename =>
    rw [Request.serve, Request.handler, run_pvFile]
    cases s.tables.userFileList.find? (·.is user md5 filename) with
    | none => exact made_kept rfl fun _ _ => rfl
    | some row =>
      exact made_kept_map (·.is user md5 filename) (fun x => { x with pv := row.pv + 1 })
        (fun _ => ⟨rfl, rfl, rfl⟩) rfl fun _ _ => rfl
  | pvShareFile enc md5 filename =>
    rw [Request.serve, Request.handler, run_pvShareFile]
    split
    · exact made_kept rfl fun _ _ => rfl
    · exact made_kept rfl fun _ _ => rfl
  | getRankingFilelist start count =>
    simp only [Request.serve, Request.handler, Procedure.run_bind, Procedure.pure_eq,
      Procedure.run_done, run_getRankingFilelist]
    exact made_kept rfl fun _ _ => rfl
  | userRegister now user nickName pwd tel email =>
    rw [Request.serve, Request.handler, run_userRegister]
    split
    · exact made_kept rfl fun _ _ => rfl
    split
    · exact made_kept rfl fun _ _ => rfl
    · exact made_kept rfl fun _ _ => rfl
  | login foreign user pwd token =>
    simp only [Request.serve, Request.handler, Procedure.run_bind, Procedure.pure_eq,
      Procedure.run_done]
    obtain hs | ⟨value, hs⟩ := run_login foreign user pwd token s
    · rw [hs]
      exact made_kept rfl fun _ _ => rfl
    · rw [hs]
      exact made_kept rfl fun _ _ => rfl

/-! ## The numbers -/

/-- Who has a file has a number, which is the number of the files. -/
def NumbersRight (s : Store) : Prop :=
  ∀ u, u ≠ shareCountUser →
    ((s.tables.userFileCount u).isSome ↔ ∃ r ∈ s.tables.userFileList, r.user = u) ∧
    ∀ n, s.tables.userFileCount u = some n →
      n = s.tables.userFileList.countP (·.user = u) ∧ 0 < n

/-- A deletion that lowers the number of a user names exactly one row. -/
def numberOk : Request → Store → Prop
  | .delFile enc user md5 filename, s =>
    s.delGoesOn enc user md5 filename → user ≠ shareCountUser →
      s.tables.userFileList.countP (·.is user md5 filename) = 1
  | _, _ => True

theorem numbersRight_iff {s : Store} : NumbersRight s ↔
    ∀ u, u ≠ shareCountUser →
      s.tables.userFileCount u = tally UserFile.user s.tables.userFileList u := by
  constructor
  · intro h u hu
    obtain ⟨hiff, hcount⟩ := h u hu
    cases hn : s.tables.userFileCount u with
    | none =>
      symm
      rw [tally_eq_none_iff]
      intro r hr heq
      have hsome := hiff.mpr ⟨r, hr, heq⟩
      rw [hn] at hsome
      cases hsome
    | some n =>
      obtain ⟨hcountP, hpos⟩ := hcount n hn
      rw [tally, if_neg (by omega), hcountP]
  · intro h u hu
    rw [h u hu]
    constructor
    · rw [Option.isSome_iff_ne_none, ne_eq, tally_eq_none_iff]
      simp
    · intro n hn
      exact tally_eq_some hn

theorem numbersRight_kept {s t : Store} (h : NumbersRight s)
    (hmade : ListChange.kept.Made s.tables t.tables) : NumbersRight t := by
  obtain ⟨⟨f, hf, hrows⟩, hcounts⟩ := hmade
  rw [numbersRight_iff] at h ⊢
  intro u hu
  rw [hcounts u hu, h u hu, hrows, tally_map _ f fun x => (hf x).1]

theorem numbersRight_added {s t : Store} (h : NumbersRight s) {row : UserFile}
    (hmade : (ListChange.added row).Made s.tables t.tables) : NumbersRight t := by
  obtain ⟨hrows, hcounts⟩ := hmade
  rw [numbersRight_iff] at h ⊢
  intro u hu
  rw [hrows, hcounts, tally_append_singleton]
  by_cases huser : u = row.user
  · subst huser
    simp only [raise, Function.update_self, h _ hu]
  · rw [raise_of_ne _ huser, raise_of_ne _ huser, h u hu]

/-- The number goes down by one, the rows by those that match. -/
theorem numbersRight_deleted {s t : Store} (h : NumbersRight s) {user md5 filename : CString}
    (hsome : s.tables.userFileCount user ≠ none)
    (hmade : (ListChange.deleted user md5 filename).Made s.tables t.tables) :
    NumbersRight t ↔ (user ≠ shareCountUser →
      s.tables.userFileList.countP (·.is user md5 filename) = 1) := by
  obtain ⟨hrows, hcounts⟩ := hmade
  rw [numbersRight_iff] at h ⊢
  have hsplit := countP_filter_add s.tables.userFileList (fun x => !x.is user md5 filename)
    (fun x => decide (x.user = user))
  have hgone : s.tables.userFileList.countP
      (fun x => decide (x.user = user) && !!x.is user md5 filename) =
      s.tables.userFileList.countP (·.is user md5 filename) := by
    refine List.countP_congr fun x _ => ?_
    cases his : x.is user md5 filename with
    | false => simp
    | true => simp [(UserFile.is_iff.mp his).1]
  rw [hgone] at hsplit
  constructor
  · intro hright huser
    have hlower := getD_lower_self hsome
    rw [← hcounts user huser, hright user huser, hrows, h user huser, getD_tally, getD_tally]
      at hlower
    omega
  · intro hone u hu
    have hkey : ∀ x ∈ s.tables.userFileList, (!x.is user md5 filename) = false → x.user = user :=
      fun x _ hx => (UserFile.is_iff.mp (by simpa using hx)).1
    rw [hcounts u hu, hrows]
    by_cases huser : u = user
    · subst huser
      rw [tally_filter_of_one UserFile.user _ _ u hkey (by simpa using hone hu)]
      simp only [lower, Function.update_self, h u hu]
    · rw [lower_of_ne _ huser, tally_filter_of_ne UserFile.user _ _ hkey huser, h u hu]

theorem numberOk_of_change {r : Request} {s : Store}
    (h : ∀ user md5 filename, r.listChange s ≠ .deleted user md5 filename) : numberOk r s := by
  cases r with
  | delFile enc user md5 filename =>
    intro hgoes
    exact absurd (if_pos hgoes) (h user md5 filename)
  | _ => exact trivial

theorem numbersRight_serve {s : Store} (h : NumbersRight s) (r : Request) :
    NumbersRight (r.serve s) ↔ numberOk r s := by
  have hmade := made_serve r s
  cases hchange : r.listChange s with
  | kept =>
    rw [hchange] at hmade
    refine iff_of_true (numbersRight_kept h hmade) (numberOk_of_change fun _ _ _ heq => ?_)
    rw [hchange] at heq
    cases heq
  | added row =>
    rw [hchange] at hmade
    refine iff_of_true (numbersRight_added h hmade) (numberOk_of_change fun _ _ _ heq => ?_)
    rw [hchange] at heq
    cases heq
  | deleted user md5 filename =>
    rw [hchange] at hmade
    cases r with
    | delFile enc user' md5' filename' =>
      rw [Request.listChange] at hchange
      split at hchange
      · rename_i hgoes
        cases hchange
        rw [numbersRight_deleted h hgoes.2 hmade]
        exact ⟨fun hone _ => hone, fun hok => hok hgoes⟩
      · cases hchange
    | _ =>
      rw [Request.listChange] at hchange
      try split at hchange
      all_goals cases hchange

theorem numbersRight_empty : NumbersRight Store.empty :=
  numbersRight_iff.mpr fun _ _ => rfl

/-- Along every serial run whose deletions name the one row they remove the numbers are
right, and the next request keeps them right exactly when it does so too. -/
theorem numbersRight_of_runs {requests : List Request} (h : Runs numberOk Store.empty requests) :
    NumbersRight (serveAll Store.empty requests) ∧
      ∀ r : Request, NumbersRight (r.serve (serveAll Store.empty requests)) ↔
        numberOk r (serveAll Store.empty requests) := by
  have hright : NumbersRight (serveAll Store.empty requests) :=
    Runs.invariant (I := NumbersRight) (fun r s hs _ hok => (numbersRight_serve hs r).mpr hok)
      numbersRight_empty h
  exact ⟨hright, numbersRight_serve hright⟩

theorem numbersRight_upload_upload_del :
    NumbersRight (serveAll Store.empty
      [.upload (bytes "t") (bytes "u") (bytes "f") (bytes "m") 1 (bytes "id") (bytes "url"),
        .upload (bytes "t") (bytes "u") (bytes "g") (bytes "n") 1 (bytes "id2") (bytes "url"),
        .delFile .ziplist (bytes "u") (bytes "m") (bytes "f")]) := by
  refine (numbersRight_of_runs ?_).1
  exact ⟨Finset.notMem_empty _, trivial, by rw [Request.admissible]; decide, trivial, trivial,
    fun _ _ => by decide, trivial⟩

/-- The user deletes under a name they never had: the number goes, the row stays. -/
theorem not_numbersRight_foreign_name :
    Runs (fun _ _ => True) Store.empty
      [.upload (bytes "t") (bytes "u") (bytes "f") (bytes "m") 1 (bytes "id") (bytes "url"),
        .delFile .ziplist (bytes "u") (bytes "m") (bytes "g")] ∧
    ¬ NumbersRight (serveAll Store.empty
      [.upload (bytes "t") (bytes "u") (bytes "f") (bytes "m") 1 (bytes "id") (bytes "url"),
        .delFile .ziplist (bytes "u") (bytes "m") (bytes "g")]) := by
  refine ⟨⟨Finset.notMem_empty _, trivial, trivial, trivial, trivial⟩, fun h => ?_⟩
  have hsome := (h (bytes "u") (by decide)).1.mpr
    ⟨⟨bytes "u", bytes "m", bytes "t", bytes "f", 0, 0⟩, by decide, rfl⟩
  revert hsome
  decide

/-! ## No file twice -/

def UniqueFiles (s : Store) : Prop :=
  ∀ user md5 filename, s.tables.userFileList.countP (·.is user md5 filename) ≤ 1

/-- An upload that enters the file, for lack of a `file_info` row, is of a file that its user
does not list. -/
def uniqueOk : Request → Store → Prop
  | .upload _ user filename md5 _ _ _, s =>
    s.tables.fileInfo md5 = none → s.tables.holds user md5 filename = false
  | _, _ => True

theorem not_unique_append {rows : List UserFile} {row : UserFile}
    (hrow : rows.any (·.is row.user row.md5 row.filename) = true) :
    1 < (rows ++ [row]).countP (·.is row.user row.md5 row.filename) := by
  have hpos : 0 < rows.countP (·.is row.user row.md5 row.filename) := by
    rw [List.countP_pos_iff]
    simpa using hrow
  have hself : [row].countP (·.is row.user row.md5 row.filename) = 1 := by
    simp [UserFile.is]
  rw [List.countP_append, hself]
  omega

theorem uniqueOk_of_change {r : Request} {s : Store} (h : ∀ row, r.listChange s ≠ .added row) :
    uniqueOk r s := by
  cases r with
  | upload now user filename md5 size fileid url =>
    intro hinfo
    exact absurd (if_pos hinfo) (h _)
  | _ => exact trivial

/-- A row is added that the list does not have, or an upload adds one. -/
theorem uniqueOk_added {r : Request} {s : Store} {row : UserFile}
    (h : r.listChange s = .added row) :
    uniqueOk r s ↔ s.tables.holds row.user row.md5 row.filename = false := by
  cases r with
  | upload now user filename md5 size fileid url =>
    rw [Request.listChange] at h
    split at h
    · rename_i hinfo
      cases h
      exact ⟨fun hok => hok hinfo, fun hholds _ => hholds⟩
    · cases h
  | dealMd5 now user md5 filename | saveFile now user md5 filename =>
    rw [Request.listChange] at h
    split at h
    · rename_i hnew
      cases h
      exact iff_of_true trivial hnew.2
    · cases h
  | delFile enc user md5 filename =>
    rw [Request.listChange] at h
    split at h
    · cases h
    · cases h
  | _ => cases h

theorem uniqueFiles_serve {s : Store} (h : UniqueFiles s) (r : Request) :
    UniqueFiles (r.serve s) ↔ uniqueOk r s := by
  have hmade := made_serve r s
  cases hchange : r.listChange s with
  | kept =>
    rw [hchange] at hmade
    obtain ⟨⟨f, hf, hrows⟩, -⟩ := hmade
    refine iff_of_true (fun user md5 filename => ?_) (uniqueOk_of_change fun row heq => ?_)
    · rw [hrows, countP_is_map f hf]
      exact h user md5 filename
    · rw [hchange] at heq
      cases heq
  | added row =>
    rw [hchange] at hmade
    rw [uniqueOk_added hchange]
    constructor
    · intro hunique
      by_contra hholds
      have hle := hunique row.user row.md5 row.filename
      rw [hmade.1] at hle
      have hany : s.tables.userFileList.any (·.is row.user row.md5 row.filename) = true :=
        (Bool.not_eq_false _).mp hholds
      have hlt := not_unique_append hany
      omega
    · intro hholds user md5 filename
      rw [hmade.1]
      exact unique_append h hholds user md5 filename
  | deleted user md5 filename =>
    rw [hchange] at hmade
    refine iff_of_true (fun u m f => ?_) (uniqueOk_of_change fun row heq => ?_)
    · rw [hmade.1]
      exact (List.filter_sublist.countP_le).trans (h u m f)
    · rw [hchange] at heq
      cases heq

theorem uniqueFiles_empty : UniqueFiles Store.empty := fun _ _ _ => Nat.zero_le _

/-- While the reference counts are right, a file without a `file_info` row has no user. -/
theorem uniqueOk_of_counted {s : Store} (h : s.files.Counted) (r : Request) : uniqueOk r s := by
  cases r with
  | upload now user filename md5 size fileid url =>
    intro hinfo
    refine List.any_eq_false.mpr fun x hx his => ?_
    exact (h.eq_none_iff md5).mp hinfo x hx (UserFile.is_iff.mp his).2.1
  | _ => exact trivial

/-- Along every serial run whose uploads are of files their users do not list no file is listed
twice, and the next request keeps it so exactly when it meets the condition too. Runs whose
deletions name rows of their users have only such uploads. -/
theorem uniqueFiles_of_runs {requests : List Request} :
    (Runs uniqueOk Store.empty requests → UniqueFiles (serveAll Store.empty requests) ∧
      ∀ r : Request, UniqueFiles (r.serve (serveAll Store.empty requests)) ↔
        uniqueOk r (serveAll Store.empty requests)) ∧
    (Runs refCountOk Store.empty requests → Runs uniqueOk Store.empty requests) := by
  constructor
  · intro h
    have hunique : UniqueFiles (serveAll Store.empty requests) :=
      Runs.invariant (I := UniqueFiles) (fun r s hs _ hok => (uniqueFiles_serve hs r).mpr hok)
        uniqueFiles_empty h
    exact ⟨hunique, uniqueFiles_serve hunique⟩
  · intro h
    exact h.weaken counted_serve (fun r s hs _ => uniqueOk_of_counted hs r) counted_empty

theorem uniqueFiles_upload_del_upload :
    UniqueFiles (serveAll Store.empty
      [.upload (bytes "t") (bytes "u") (bytes "f") (bytes "m") 1 (bytes "id") (bytes "url"),
        .delFile .ziplist (bytes "u") (bytes "m") (bytes "f"),
        .upload (bytes "t") (bytes "u") (bytes "f") (bytes "m") 1 (bytes "id") (bytes "url")]) := by
  refine (uniqueFiles_of_runs.1 ?_).1
  exact ⟨Finset.notMem_empty _, fun _ => rfl, trivial, trivial, by rw [Request.admissible]; decide,
    fun _ => by decide, trivial⟩

/-- After a deletion under another name the same upload is entered again. -/
theorem not_uniqueFiles_reupload :
    Runs (fun _ _ => True) Store.empty
      [.upload (bytes "t") (bytes "u") (bytes "f") (bytes "m") 1 (bytes "id") (bytes "url"),
        .delFile .ziplist (bytes "u") (bytes "m") (bytes "g"),
        .upload (bytes "t") (bytes "u") (bytes "f") (bytes "m") 1 (bytes "id") (bytes "url")] ∧
    ¬ UniqueFiles (serveAll Store.empty
      [.upload (bytes "t") (bytes "u") (bytes "f") (bytes "m") 1 (bytes "id") (bytes "url"),
        .delFile .ziplist (bytes "u") (bytes "m") (bytes "g"),
        .upload (bytes "t") (bytes "u") (bytes "f") (bytes "m") 1 (bytes "id") (bytes "url")]) := by
  refine ⟨⟨Finset.notMem_empty _, trivial, trivial, trivial, by rw [Request.admissible]; decide,
    trivial, trivial⟩, fun h => ?_⟩
  have htwice := h (bytes "u") (bytes "m") (bytes "f")
  revert htwice
  decide

end HfDfs
