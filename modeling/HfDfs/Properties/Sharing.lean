import HfDfs.Properties.Deletion

/-!
# Flag, share row and counter

That a file is shared is recorded three times: by the flag of the user's
row, by a row of `share_file_list` and in the counter of shared files. The
invariant adds what keeps them together: a file is in the share list once,
and the first of several rows of a user's file has the flag if any has it.
-/

namespace HfDfs

set_option autoImplicit false

open Procedures Tallies Zlexcount

/-- The part of the store that sharing is about; a missing counter row counts as 0. -/
structure Sharing where
  counter : Int
  shares : List ShareFile
  rows : List UserFile

def Store.sharing (s : Store) : Sharing :=
  ⟨(s.tables.userFileCount shareCountUser).getD 0, s.tables.shareFileList, s.tables.userFileList⟩

namespace Sharing

def lists (F : Sharing) (user md5 filename : CString) : Prop :=
  ∃ r ∈ F.shares, r.is user md5 filename = true

def flagged (F : Sharing) (user md5 filename : CString) : Prop :=
  ∃ r ∈ F.rows, r.is user md5 filename = true ∧ r.sharedStatus = 1

/-- The flag a deletion reads. -/
def status (F : Sharing) (user md5 filename : CString) : Int :=
  match F.rows.find? (·.is user md5 filename) with
  | none => 0
  | some r => r.sharedStatus

structure Coherent (F : Sharing) : Prop where
  counter_eq : F.counter = F.shares.length
  lists_iff : ∀ user md5 filename, F.lists user md5 filename ↔ F.flagged user md5 filename

structure Kept (F : Sharing) : Prop extends Coherent F where
  single : ∀ md5 filename, F.shares.countP (·.isFile md5 filename) ≤ 1
  first : ∀ user md5 filename, F.flagged user md5 filename → F.status user md5 filename = 1

/-! ## The changes of the handlers -/

def append (F : Sharing) (row : UserFile) : Sharing := { F with rows := F.rows ++ [row] }

def setStatus (F : Sharing) (x : Int) (user md5 filename : CString) : Sharing :=
  { F with rows := F.rows.map fun r =>
      if r.is user md5 filename then { r with sharedStatus := x } else r }

def drop (F : Sharing) (user md5 filename : CString) : Sharing :=
  { F with rows := F.rows.filter fun r => !r.is user md5 filename }

def enter (F : Sharing) (row : ShareFile) : Sharing :=
  { F with counter := F.counter + 1, shares := F.shares ++ [row] }

def leave (F : Sharing) (user md5 filename : CString) : Sharing :=
  { F with
    counter := F.counter - 1
    shares := F.shares.filter fun r => !r.is user md5 filename }

section

variable {F : Sharing} {user md5 filename : CString}

theorem is_eq_false {r : UserFile} {u m f : CString} (his : r.is u m f = true)
    (hne : (u, m, f) ≠ (user, md5, filename)) : r.is user md5 filename = false := by
  obtain ⟨rfl, rfl, rfl⟩ := UserFile.is_iff.mp his
  rw [← Bool.not_eq_true, UserFile.is_iff]
  rintro ⟨rfl, rfl, rfl⟩
  exact hne rfl

theorem flagged_append {row : UserFile} (hrow : row.sharedStatus ≠ 1) (u m f : CString) :
    (F.append row).flagged u m f ↔ F.flagged u m f := by
  constructor
  · rintro ⟨r, hr, his, hone⟩
    rcases List.mem_append.mp hr with hr | hr
    · exact ⟨r, hr, his, hone⟩
    · rw [List.mem_singleton.mp hr] at hone
      exact absurd hone hrow
  · rintro ⟨r, hr, his, hone⟩
    exact ⟨r, List.mem_append_left _ hr, his, hone⟩

theorem flagged_setStatus_self (x : Int) :
    (F.setStatus x user md5 filename).flagged user md5 filename ↔
      x = 1 ∧ ∃ r ∈ F.rows, r.is user md5 filename = true := by
  constructor
  · rintro ⟨_, hmem, his, hone⟩
    obtain ⟨r, hr, rfl⟩ := List.mem_map.mp hmem
    cases hr_is : r.is user md5 filename with
    | true =>
      rw [if_pos hr_is] at hone
      exact ⟨hone, r, hr, hr_is⟩
    | false => simp [hr_is] at his
  · rintro ⟨rfl, r, hr, his⟩
    exact ⟨_, List.mem_map.mpr ⟨r, hr, if_pos his⟩, his, rfl⟩

theorem flagged_setStatus_other (x : Int) {u m f : CString}
    (hne : (u, m, f) ≠ (user, md5, filename)) :
    (F.setStatus x user md5 filename).flagged u m f ↔ F.flagged u m f := by
  constructor
  · rintro ⟨_, hmem, his, hone⟩
    obtain ⟨r, hr, rfl⟩ := List.mem_map.mp hmem
    cases hr_is : r.is user md5 filename with
    | true =>
      rw [if_pos hr_is] at his
      have hother : r.is user md5 filename = false := is_eq_false his hne
      exact absurd hr_is (by simp [hother])
    | false =>
      rw [hr_is] at his hone
      exact ⟨r, hr, his, hone⟩
  · rintro ⟨r, hr, his, hone⟩
    exact ⟨r, List.mem_map.mpr ⟨r, hr, by simp [is_eq_false his hne]⟩, his, hone⟩

theorem flagged_drop (u m f : CString) : (F.drop user md5 filename).flagged u m f ↔
    (u, m, f) ≠ (user, md5, filename) ∧ F.flagged u m f := by
  constructor
  · rintro ⟨r, hmem, his, hone⟩
    obtain ⟨hr, hkeep⟩ := List.mem_filter.mp hmem
    refine ⟨?_, r, hr, his, hone⟩
    rintro ⟨rfl, rfl, rfl⟩
    simp [his] at hkeep
  · rintro ⟨hne, r, hr, his, hone⟩
    exact ⟨r, List.mem_filter.mpr ⟨hr, by simp [is_eq_false his hne]⟩, his, hone⟩

theorem lists_enter (row : ShareFile) (u m f : CString) : (F.enter row).lists u m f ↔
    F.lists u m f ∨ row.is u m f = true := by
  simp [lists, enter, or_and_right, exists_or]

theorem lists_leave (u m f : CString) : (F.leave user md5 filename).lists u m f ↔
    (u, m, f) ≠ (user, md5, filename) ∧ F.lists u m f := by
  constructor
  · rintro ⟨r, hmem, his⟩
    obtain ⟨hr, hkeep⟩ := List.mem_filter.mp hmem
    refine ⟨?_, r, hr, his⟩
    rintro ⟨rfl, rfl, rfl⟩
    simp [his] at hkeep
  · rintro ⟨hne, r, hr, his⟩
    refine ⟨r, List.mem_filter.mpr ⟨hr, ?_⟩, his⟩
    obtain ⟨rfl, rfl, rfl⟩ := ShareFile.is_iff.mp his
    rw [Bool.not_eq_true', ← Bool.not_eq_true, ShareFile.is_iff]
    rintro ⟨rfl, rfl, rfl⟩
    exact hne rfl

theorem status_append (row : UserFile) {u m f : CString} (h : F.flagged u m f) :
    (F.append row).status u m f = F.status u m f := by
  obtain ⟨r, hr, his, -⟩ := h
  obtain ⟨first, hfirst⟩ := Option.isSome_iff_exists.mp (List.find?_isSome.mpr ⟨r, hr, his⟩)
  simp [status, append, List.find?_append, hfirst]

theorem find_setStatus (x : Int) (u m f : CString) :
    (F.setStatus x user md5 filename).rows.find? (·.is u m f) =
      (F.rows.find? (·.is u m f)).map fun r =>
        if r.is user md5 filename then { r with sharedStatus := x } else r := by
  rw [setStatus, List.find?_map]
  congr 2
  funext r
  simp only [Function.comp_apply]
  split <;> rfl

theorem status_setStatus_self {r : UserFile} (hr : r ∈ F.rows) (his : r.is user md5 filename = true)
    (x : Int) : (F.setStatus x user md5 filename).status user md5 filename = x := by
  obtain ⟨first, hfirst⟩ := Option.isSome_iff_exists.mp (List.find?_isSome.mpr ⟨r, hr, his⟩)
  have hfirst_is : first.is user md5 filename = true := List.find?_some hfirst
  simp [status, find_setStatus, hfirst, hfirst_is]

theorem status_setStatus_other (x : Int) {u m f : CString}
    (hne : (u, m, f) ≠ (user, md5, filename)) :
    (F.setStatus x user md5 filename).status u m f = F.status u m f := by
  cases hfirst : F.rows.find? (·.is u m f) with
  | none => simp [status, find_setStatus, hfirst]
  | some first =>
    have hother := is_eq_false (List.find?_some hfirst) hne
    simp [status, find_setStatus, hfirst, hother]

theorem status_drop_other {u m f : CString} (hne : (u, m, f) ≠ (user, md5, filename)) :
    (F.drop user md5 filename).status u m f = F.status u m f := by
  have hfind : (F.drop user md5 filename).rows.find? (·.is u m f) = F.rows.find? (·.is u m f) := by
    rw [drop, List.find?_filter]
    congr 1
    funext r
    cases his : r.is u m f with
    | false => simp
    | true => simp [is_eq_false his hne]
  rw [status, hfind, status]

theorem Kept.countP_is_le (h : F.Kept) (user md5 filename : CString) :
    F.shares.countP (ShareFile.is user md5 filename) ≤ 1 := by
  refine le_trans (List.countP_mono_left fun r _ his => ?_) (h.single md5 filename)
  exact ShareFile.isFile_iff.mpr (ShareFile.is_iff.mp his).2

/-- A listed file is listed once. -/
theorem Kept.countP_is (h : F.Kept) (hlists : F.lists user md5 filename) :
    F.shares.countP (ShareFile.is user md5 filename) = 1 := by
  obtain ⟨r, hr, his⟩ := hlists
  have hpos : 0 < F.shares.countP (ShareFile.is user md5 filename) :=
    List.countP_pos_iff.mpr ⟨r, hr, his⟩
  have hle := h.countP_is_le user md5 filename
  omega

theorem length_leave (F : Sharing) (user md5 filename : CString) :
    ((F.leave user md5 filename).shares.length : Int) =
      F.shares.length - F.shares.countP (ShareFile.is user md5 filename) := by
  have hsplit := List.length_eq_countP_add_countP (ShareFile.is user md5 filename) (l := F.shares)
  have hkept : (F.leave user md5 filename).shares.length =
      F.shares.countP fun r => decide ¬ r.is user md5 filename = true := by
    rw [leave, ← List.countP_eq_length_filter]
    congr 1
    funext r
    simp
  omega

/-- The counter goes down with the rows only if the file was listed. -/
theorem Kept.lists_of_length (h : F.Kept)
    (hlength : F.counter - 1 = (F.leave user md5 filename).shares.length) :
    F.lists user md5 filename := by
  by_contra hlists
  have hzero : F.shares.countP (ShareFile.is user md5 filename) = 0 :=
    List.countP_eq_zero.mpr fun r hr his => hlists ⟨r, hr, his⟩
  have hleave := length_leave F user md5 filename
  have hcounter := h.counter_eq
  omega

theorem Kept.append (h : F.Kept) {row : UserFile} (hrow : row.sharedStatus = 0) :
    (F.append row).Kept where
  counter_eq := h.counter_eq
  lists_iff u m f := by
    rw [flagged_append (by omega)]
    exact h.lists_iff u m f
  single := h.single
  first u m f hflagged := by
    rw [flagged_append (by omega)] at hflagged
    rw [status_append row hflagged]
    exact h.first u m f hflagged

theorem Kept.share (h : F.Kept) (hnew : F.shares.any (·.isFile md5 filename) = false)
    {r : UserFile} (hr : r ∈ F.rows) (his : r.is user md5 filename = true) (now : CString) :
    ((F.setStatus 1 user md5 filename).enter ⟨user, md5, now, filename, 0⟩).Kept where
  counter_eq := by simp [enter, setStatus, h.counter_eq]
  lists_iff u m f := by
    rw [lists_enter]
    by_cases heq : (u, m, f) = (user, md5, filename)
    · obtain ⟨rfl, rfl, rfl⟩ : u = user ∧ m = md5 ∧ f = filename := by simpa using heq
      exact iff_of_true (Or.inr (by simp [ShareFile.is]))
        ((flagged_setStatus_self 1).mpr ⟨rfl, r, hr, his⟩)
    · have hrow : ShareFile.is u m f ⟨user, md5, now, filename, 0⟩ = false := by
        rw [← Bool.not_eq_true, ShareFile.is_iff]
        rintro ⟨rfl, rfl, rfl⟩
        exact heq rfl
      rw [hrow, Bool.false_eq_true, or_false]
      exact (h.lists_iff u m f).trans (flagged_setStatus_other 1 heq).symm
  single m f := by
    simp only [enter, setStatus, List.countP_append]
    by_cases heq : (m, f) = (md5, filename)
    · obtain ⟨rfl, rfl⟩ : m = md5 ∧ f = filename := by simpa using heq
      have hzero : F.shares.countP (·.isFile m f) = 0 := by
        rw [List.countP_eq_zero]
        intro r hr hr_is
        exact absurd (List.any_eq_true.mpr ⟨r, hr, hr_is⟩) (by simp [hnew])
      rw [hzero]
      simpa using List.countP_le_length (l := [(⟨user, m, now, f, 0⟩ : ShareFile)])
    · have hrow : ShareFile.isFile m f ⟨user, md5, now, filename, 0⟩ = false := by
        rw [← Bool.not_eq_true, ShareFile.isFile_iff]
        rintro ⟨rfl, rfl⟩
        exact heq rfl
      simpa [hrow] using h.single m f
  first u m f hflagged := by
    by_cases heq : (u, m, f) = (user, md5, filename)
    · obtain ⟨rfl, rfl, rfl⟩ : u = user ∧ m = md5 ∧ f = filename := by simpa using heq
      exact status_setStatus_self hr his 1
    · exact (status_setStatus_other 1 heq).trans
        (h.first u m f ((flagged_setStatus_other 1 heq).mp hflagged))

theorem Kept.cancel (h : F.Kept) (hlists : F.lists user md5 filename) :
    ((F.setStatus 0 user md5 filename).leave user md5 filename).Kept where
  counter_eq := by
    have hlength := length_leave F user md5 filename
    rw [h.countP_is hlists, ← h.counter_eq] at hlength
    exact hlength.symm
  lists_iff u m f := by
    rw [lists_leave]
    by_cases heq : (u, m, f) = (user, md5, filename)
    · obtain ⟨rfl, rfl, rfl⟩ : u = user ∧ m = md5 ∧ f = filename := by simpa using heq
      refine iff_of_false (fun hne => hne.1 rfl) fun hflagged => ?_
      exact absurd ((flagged_setStatus_self 0).mp hflagged).1 (by decide)
    · exact (and_iff_right heq).trans ((h.lists_iff u m f).trans (flagged_setStatus_other 0 heq).symm)
  single m f := (List.filter_sublist.countP_le).trans (h.single m f)
  first u m f hflagged := by
    by_cases heq : (u, m, f) = (user, md5, filename)
    · obtain ⟨rfl, rfl, rfl⟩ : u = user ∧ m = md5 ∧ f = filename := by simpa using heq
      exact absurd ((flagged_setStatus_self 0).mp hflagged).1 (by decide)
    · exact (status_setStatus_other 0 heq).trans
        (h.first u m f ((flagged_setStatus_other 0 heq).mp hflagged))

theorem Kept.delete (h : F.Kept) (hlists : F.lists user md5 filename) :
    ((F.leave user md5 filename).drop user md5 filename).Kept where
  counter_eq := by
    have hlength := length_leave F user md5 filename
    rw [h.countP_is hlists, ← h.counter_eq] at hlength
    exact hlength.symm
  lists_iff u m f := by
    rw [flagged_drop]
    exact (lists_leave u m f).trans (and_congr_right fun _ => h.lists_iff u m f)
  single m f := (List.filter_sublist.countP_le).trans (h.single m f)
  first u m f hflagged := by
    rw [flagged_drop] at hflagged
    exact (status_drop_other hflagged.1).trans (h.first u m f hflagged.2)

/-- A file that is not shared may go. -/
theorem Kept.drop (h : F.Kept) (hstatus : F.status user md5 filename ≠ 1) :
    (F.drop user md5 filename).Kept where
  counter_eq := h.counter_eq
  lists_iff u m f := by
    rw [flagged_drop]
    refine (h.lists_iff u m f).trans (Iff.symm (and_iff_right_of_imp ?_))
    intro hflagged heq
    obtain ⟨rfl, rfl, rfl⟩ : u = user ∧ m = md5 ∧ f = filename := by simpa using heq
    exact hstatus (h.first u m f hflagged)
  single := h.single
  first u m f hflagged := by
    rw [flagged_drop] at hflagged
    exact (status_drop_other hflagged.1).trans (h.first u m f hflagged.2)

theorem Kept.setStatus_zero (h : F.Kept) (hzero : F.counter = 0) :
    (F.setStatus 0 user md5 filename).Kept := by
  have hshares : F.shares = [] := by
    have hlength := h.counter_eq
    rw [← List.length_eq_zero_iff]
    omega
  have hnone : ∀ u m f, ¬ (F.setStatus 0 user md5 filename).flagged u m f := by
    intro u m f hflagged
    by_cases heq : (u, m, f) = (user, md5, filename)
    · obtain ⟨rfl, rfl, rfl⟩ : u = user ∧ m = md5 ∧ f = filename := by simpa using heq
      exact absurd ((flagged_setStatus_self 0).mp hflagged).1 (by decide)
    · obtain ⟨r, hr, -⟩ := (h.lists_iff u m f).mpr ((flagged_setStatus_other 0 heq).mp hflagged)
      simp [hshares] at hr
  refine ⟨⟨h.counter_eq, fun u m f => iff_of_false ?_ (hnone u m f)⟩, h.single,
    fun u m f hflagged => absurd hflagged (hnone u m f)⟩
  rintro ⟨r, hr, -⟩
  simp [setStatus, hshares] at hr

/-- Columns that sharing does not look at may change. -/
theorem Kept.map (h : F.Kept) (g : UserFile → UserFile) (g' : ShareFile → ShareFile)
    (his : ∀ r u m f, (g r).is u m f = r.is u m f)
    (hflag : ∀ r, (g r).sharedStatus = r.sharedStatus)
    (his' : ∀ r u m f, (g' r).is u m f = r.is u m f)
    (hfile : ∀ r m f, (g' r).isFile m f = r.isFile m f) :
    ({ F with rows := F.rows.map g, shares := F.shares.map g' } : Sharing).Kept where
  counter_eq := by simpa using h.counter_eq
  lists_iff u m f := by simpa [lists, flagged, his, hflag, his'] using h.lists_iff u m f
  single m f := by
    have hsame : (fun r => ShareFile.isFile m f (g' r)) = ShareFile.isFile m f := by
      funext r
      exact hfile r m f
    rw [List.countP_map, Function.comp_def, hsame]
    exact h.single m f
  first u m f hflagged := by
    have hsame : (fun r => UserFile.is u m f (g r)) = UserFile.is u m f := by
      funext r
      exact his r u m f
    have hbefore : F.flagged u m f := by simpa [flagged, his, hflag] using hflagged
    have hstatus := h.first u m f hbefore
    simp only [status, List.find?_map, Function.comp_def, hsame] at hstatus ⊢
    cases hfirst : F.rows.find? (UserFile.is u m f) with
    | none => simp [hfirst] at hstatus
    | some first => simpa [hfirst, hflag] using hstatus

end

end Sharing

/-! ## What the requests do to the sharing -/

/-- Nobody works under the name of the counter; only a file the user has is shared; only
the sharer cancels; and whoever deletes a file that passes for shared shares it. -/
def coherentOk : Request → Store → Prop
  | .upload _ user _ md5 _ _ _, s => s.tables.fileInfo md5 = none → user ≠ shareCountUser
  | .dealMd5 _ user md5 filename, s =>
    s.tables.fileInfo md5 ≠ none → s.tables.holds user md5 filename = false → user ≠ shareCountUser
  | .saveFile _ user md5 filename, s =>
    s.tables.fileInfo md5 ≠ none → s.tables.holds user md5 filename = false → user ≠ shareCountUser
  | .shareFile enc _ user md5 filename, s =>
    s.redis.presence (fileid md5 filename) enc = 0 → s.tables.shared md5 filename = false →
      s.tables.holds user md5 filename = true
  | .cancelShareFile user md5 filename, s =>
    s.tables.userFileCount shareCountUser ≠ none → s.sharing.lists user md5 filename
  | .delFile enc user md5 filename, s =>
    (s.delShared enc user md5 filename → s.tables.userFileCount shareCountUser ≠ none →
      s.sharing.lists user md5 filename ∧ s.tables.userFileCount user ≠ none) ∧
    (s.delGoesOn enc user md5 filename → user ≠ shareCountUser)
  | _, _ => True

/-- The condition is enough for the whole invariant, and needed for coherence alone. -/
def Settles (ok : Prop) (F : Sharing) : Prop := (ok → F.Kept) ∧ (F.Coherent → ok)

theorem settles_of_kept {ok : Prop} {F : Sharing} (h : F.Kept) (hok : ok) : Settles ok F :=
  ⟨fun _ => h, fun _ => hok⟩

section

variable {s : Store} (h : s.sharing.Kept)
include h

theorem settles_gain (now user md5 filename : CString) (info : FileInfo)
    (storage : Finset CString) : Settles (user ≠ shareCountUser)
      (⟨s.tables.gain now user md5 filename info, s.redis, storage⟩ : Store).sharing := by
  constructor
  · intro hu
    have hsharing : (⟨s.tables.gain now user md5 filename info, s.redis, storage⟩ :
        Store).sharing = s.sharing.append ⟨user, md5, now, filename, 0, 0⟩ := by
      simp [Store.sharing, Sharing.append, Tables.gain, raise_of_ne _ hu.symm]
    rw [hsharing]
    exact h.append rfl
  · rintro hcoherent rfl
    have hafter := hcoherent.counter_eq
    have hbefore := h.counter_eq
    simp only [Store.sharing, Tables.gain, getD_raise_self] at hafter hbefore
    omega

theorem settles_upload (now user filename md5 : CString) (size : Int) (fileid url : CString) :
    Settles (coherentOk (.upload now user filename md5 size fileid url) s)
      (Request.upload now user filename md5 size fileid url |>.serve s).sharing := by
  rw [Request.serve, Request.handler, run_upload, run_storeFileinfoToMysql, coherentOk]
  cases hinfo : s.tables.fileInfo md5 with
  | some info => exact settles_of_kept h (by simp)
  | none => simpa using settles_gain h now user md5 filename _ _

theorem settles_gained {t : Store} {now user md5 filename : CString}
    (hgained : Gained now user md5 filename s t) :
    Settles (s.tables.fileInfo md5 ≠ none → s.tables.holds user md5 filename = false →
      user ≠ shareCountUser) t.sharing := by
  rcases hgained with ⟨hnothing, rfl⟩ | ⟨info, hinfo, hholds, rfl⟩
  · refine settles_of_kept h fun hsome hholds => ?_
    rcases hnothing with hnone | hheld
    · exact absurd hnone hsome
    · rw [hholds] at hheld
      cases hheld
  · simpa [hinfo, hholds] using settles_gain h now user md5 filename info s.storage

theorem settles_shareFile (enc : Encoding) (now user md5 filename : CString) :
    Settles (coherentOk (.shareFile enc now user md5 filename) s)
      (Request.shareFile enc now user md5 filename |>.serve s).sharing := by
  rw [Request.serve, Request.handler, run_shareFile, coherentOk]
  rcases eq_or_ne (s.redis.presence (fileid md5 filename) enc) 0 with h0 | h0
  · rw [if_neg (by omega), if_neg (by omega)]
    cases hshared : s.tables.shared md5 filename with
    | true => exact settles_of_kept h (by simp)
    | false =>
      have hsharing : ({ s with
          tables := s.tables.share now user md5 filename
          redis := s.redis.publish 0 (fileid md5 filename) filename } : Store).sharing =
          (s.sharing.setStatus 1 user md5 filename).enter ⟨user, md5, now, filename, 0⟩ := by
        simp [Store.sharing, Sharing.setStatus, Sharing.enter, Tables.share, Tables.setStatus,
          getD_raise_self]
      simp only [h0, forall_const, Bool.false_eq_true, if_false, hsharing]
      constructor
      · intro hholds
        obtain ⟨r, hr, his⟩ := List.any_eq_true.mp hholds
        exact h.share hshared hr his now
      · intro hcoherent
        have hlists := (Sharing.lists_enter (F := s.sharing.setStatus 1 user md5 filename)
          ⟨user, md5, now, filename, 0⟩ user md5 filename).mpr (Or.inr (by simp [ShareFile.is]))
        obtain ⟨-, r, hr, his⟩ := (Sharing.flagged_setStatus_self 1).mp
          ((hcoherent.lists_iff user md5 filename).mp hlists)
        exact List.any_eq_true.mpr ⟨r, hr, his⟩
  · rcases eq_or_ne (s.redis.presence (fileid md5 filename) enc) 1 with h1 | h1
    · rw [if_pos h1]
      exact settles_of_kept h fun h0' => absurd h0' h0
    · rw [if_neg h1, if_pos h0]
      exact settles_of_kept h fun h0' => absurd h0' h0

theorem settles_cancelShareFile (user md5 filename : CString) :
    Settles (coherentOk (.cancelShareFile user md5 filename) s)
      (Request.cancelShareFile user md5 filename |>.serve s).sharing := by
  rw [Request.serve, Request.handler, run_cancelShareFile, coherentOk]
  cases hcount : s.tables.userFileCount shareCountUser with
  | none =>
    have hsharing : ({ s with tables := s.tables.setStatus 0 user md5 filename } : Store).sharing =
        s.sharing.setStatus 0 user md5 filename := rfl
    have hzero : s.sharing.counter = 0 := by simp [Store.sharing, hcount]
    refine settles_of_kept ?_ (by simp)
    rw [hsharing]
    exact h.setStatus_zero hzero
  | some n =>
    have hsharing : ∀ redis : Redis, (⟨(s.tables.setStatus 0 user md5 filename).cancel user md5
        filename, redis, s.storage⟩ : Store).sharing =
        (s.sharing.setStatus 0 user md5 filename).leave user md5 filename := by
      intro redis
      have hlower := getD_lower_self (t := s.tables.userFileCount) (k := shareCountUser) (by simp [hcount])
      simpa [Store.sharing, Sharing.setStatus, Sharing.leave, Tables.cancel, Tables.setStatus,
        Tables.unshare] using hlower
    simp only [ne_eq, reduceCtorEq, not_false_eq_true, forall_const, hsharing]
    exact ⟨fun hlists => h.cancel hlists, fun hcoherent => h.lists_of_length hcoherent.counter_eq⟩

omit h in
theorem sharing_delFile (enc : Encoding) (user md5 filename : CString) :
    (Request.delFile enc user md5 filename |>.serve s).sharing =
      { counter :=
          let counts := if s.delShared enc user md5 filename then lowerCounter s.tables.userFileCount
            else s.tables.userFileCount
          ((if s.delGoesOn enc user md5 filename then lower counts user else counts)
            shareCountUser).getD 0
        shares :=
          if s.delShared enc user md5 filename
          then s.tables.shareFileList.filter fun r => !r.is user md5 filename
          else s.tables.shareFileList
        rows :=
          if s.delGoesOn enc user md5 filename
          then s.tables.userFileList.filter fun r => !r.is user md5 filename
          else s.tables.userFileList } := by
  rw [Request.serve, Request.handler, Store.sharing, userFileCount_delFile, shareFileList_delFile,
    userFileList_delFile]

/-- The shared branch of a deletion, when there is a counter to lower. -/
theorem settles_delFile_shared {enc : Encoding} {user md5 filename : CString} {n : Int}
    (hshared : s.delShared enc user md5 filename)
    (hcount : s.tables.userFileCount shareCountUser = some n) :
    Settles (coherentOk (.delFile enc user md5 filename) s)
      (Request.delFile enc user md5 filename |>.serve s).sharing := by
  have hgoes : s.delGoesOn enc user md5 filename ↔ s.tables.userFileCount user ≠ none := by
    rw [Store.delGoesOn_iff]
    simp [hshared.imp_right And.left, hcount]
  have hsharing := sharing_delFile (s := s) enc user md5 filename
  rw [coherentOk]
  simp only [hshared, hcount, hgoes, forall_const, if_true, ne_eq, reduceCtorEq, not_false_eq_true] at hsharing ⊢
  cases huser : s.tables.userFileCount user with
  | none =>
    -- the share row goes, the flag stays
    have hleave : (Request.delFile enc user md5 filename |>.serve s).sharing =
        s.sharing.leave user md5 filename := by
      simpa [huser, lowerCounter_self, hcount, Sharing.leave, Store.sharing] using hsharing
    rw [hleave]
    refine ⟨fun hok => absurd rfl hok.1.2, fun hcoherent => ?_⟩
    have hflagged := (h.lists_iff user md5 filename).mp (h.lists_of_length hcoherent.counter_eq)
    have hlists := (hcoherent.lists_iff user md5 filename).mpr hflagged
    exact absurd rfl ((Sharing.lists_leave user md5 filename).mp hlists).1
  | some k =>
    rcases eq_or_ne user shareCountUser with rfl | hu
    · -- the counter is lowered twice
      refine ⟨fun hok => absurd rfl (hok.2 (by simp)), fun hcoherent => ?_⟩
      have hlower := getD_lower_self (t := lowerCounter s.tables.userFileCount) (k := shareCountUser)
        (by simp [lowerCounter_self, hcount])
      have hcounter := hcoherent.counter_eq
      have hbefore := h.counter_eq
      have hle := h.countP_is_le shareCountUser md5 filename
      have hlength := Sharing.length_leave s.sharing shareCountUser md5 filename
      simp only [hsharing, hcount, reduceCtorEq, not_false_eq_true, if_true, hlower,
        lowerCounter_self, Option.map_some, Option.getD_some] at hcounter
      simp only [Store.sharing, hcount, Option.getD_some, Sharing.leave] at hbefore hlength hle
      omega
    · have hdelete : (Request.delFile enc user md5 filename |>.serve s).sharing =
          (s.sharing.leave user md5 filename).drop user md5 filename := by
        simpa [huser, lower_of_ne _ hu.symm, lowerCounter_self, hcount, Sharing.leave, Sharing.drop,
          Store.sharing] using hsharing
      rw [hdelete]
      refine ⟨fun hok => h.delete hok.1.1, fun hcoherent => ?_⟩
      exact ⟨⟨h.lists_of_length hcoherent.counter_eq, by simp⟩, fun _ => hu⟩

theorem settles_delFile (enc : Encoding) (user md5 filename : CString) :
    Settles (coherentOk (.delFile enc user md5 filename) s)
      (Request.delFile enc user md5 filename |>.serve s).sharing := by
  have hsharing := sharing_delFile (s := s) enc user md5 filename
  rcases Decidable.em (s.delShared enc user md5 filename) with hshared | hshared
  · cases hcount : s.tables.userFileCount shareCountUser with
    | some n => exact settles_delFile_shared h hshared hcount
    | none =>
      -- the share list is empty, and the deletion stops
      have hstops : ¬ s.delGoesOn enc user md5 filename := by
        rw [Store.delGoesOn_iff]
        exact fun hgoes => hgoes.2.1 hshared hcount
      have hempty : s.tables.shareFileList = [] := by
        have hcounter := h.counter_eq
        simp only [Store.sharing, hcount, Option.getD_none] at hcounter
        rw [← List.length_eq_zero_iff]
        omega
      have hsame : (Request.delFile enc user md5 filename |>.serve s).sharing = s.sharing := by
        simpa [hstops, hshared, lowerCounter_of_none hcount, Store.sharing, hempty] using hsharing
      rw [hsame]
      exact settles_of_kept h ⟨fun _ hsome => absurd hcount hsome, fun hgoes => absurd hgoes hstops⟩
  · rcases Decidable.em (s.delGoesOn enc user md5 filename) with hgoes | hgoes
    · obtain ⟨hpresence, -, hcount⟩ := Store.delGoesOn_iff.mp hgoes
      have hstatus : s.sharing.status user md5 filename ≠ 1 := by
        intro hone
        exact hshared (hpresence.imp_right fun h0 => ⟨h0, hone⟩)
      rw [coherentOk]
      rcases eq_or_ne user shareCountUser with rfl | hu
      · refine ⟨fun hok => absurd rfl (hok.2 hgoes), fun hcoherent => ?_⟩
        have hlower := getD_lower_self hcount
        have hcounter := hcoherent.counter_eq
        have hbefore := h.counter_eq
        simp only [hsharing, if_neg hshared, if_pos hgoes, hlower] at hcounter
        simp only [Store.sharing] at hbefore
        omega
      · have hdrop : (Request.delFile enc user md5 filename |>.serve s).sharing =
            s.sharing.drop user md5 filename := by
          simpa [hgoes, hshared, lower_of_ne _ hu.symm, Sharing.drop, Store.sharing] using hsharing
        rw [hdrop]
        exact settles_of_kept (h.drop hstatus) ⟨fun hs => absurd hs hshared, fun _ => hu⟩
    · have hsame : (Request.delFile enc user md5 filename |>.serve s).sharing = s.sharing := by
        simpa [hgoes, hshared, Store.sharing] using hsharing
      rw [hsame]
      exact settles_of_kept h ⟨fun hs => absurd hs hshared, fun hg => absurd hg hgoes⟩

theorem kept_setPv (pv : Int) (user md5 filename : CString) :
    ({ s with tables := s.tables.setPv pv user md5 filename } : Store).sharing.Kept := by
  have hkept := h.map (fun r => if r.is user md5 filename then { r with pv := pv } else r) id
    (fun r u m f => by split <;> rfl) (fun r => by split <;> rfl)
    (fun _ _ _ _ => rfl) (fun _ _ _ => rfl)
  rw [List.map_id] at hkept
  exact hkept

theorem kept_setSharePv (pv : Int) (md5 filename : CString) (redis : Redis) :
    (⟨s.tables.setSharePv pv md5 filename, redis, s.storage⟩ : Store).sharing.Kept := by
  have hkept := h.map id (fun r => if r.isFile md5 filename then { r with pv := pv } else r)
    (fun _ _ _ _ => rfl) (fun _ => rfl)
    (fun r u m f => by split <;> rfl) (fun r m f => by split <;> rfl)
  rw [List.map_id] at hkept
  exact hkept

theorem settles_serve (r : Request) : Settles (coherentOk r s) (r.serve s).sharing := by
  cases r with
  | upload now user filename md5 size fileid url =>
    exact settles_upload h now user filename md5 size fileid url
  | dealMd5 now user md5 filename => exact settles_gained h (gained_dealMd5 now user md5 filename s)
  | saveFile now user md5 filename =>
    exact settles_gained h (gained_saveFile now user md5 filename s)
  | shareFile enc now user md5 filename => exact settles_shareFile h enc now user md5 filename
  | cancelShareFile user md5 filename => exact settles_cancelShareFile h user md5 filename
  | delFile enc user md5 filename => exact settles_delFile h enc user md5 filename
  | pvFile user md5 filename =>
    rw [Request.serve, Request.handler, run_pvFile]
    split
    · exact settles_of_kept h trivial
    · exact settles_of_kept (kept_setPv h _ user md5 filename) trivial
  | pvShareFile enc md5 filename =>
    rw [Request.serve, Request.handler, run_pvShareFile]
    split
    · exact settles_of_kept h trivial
    · exact settles_of_kept (kept_setSharePv h _ md5 filename _) trivial
  | getRankingFilelist start count =>
    simp only [Request.serve, Request.handler, Procedure.run_bind, Procedure.pure_eq,
      Procedure.run_done, run_getRankingFilelist]
    exact settles_of_kept h trivial
  | userRegister now user nickName pwd tel email =>
    rw [Request.serve, Request.handler, run_userRegister]
    split
    · exact settles_of_kept h trivial
    split <;> exact settles_of_kept h trivial
  | login foreign user pwd token =>
    simp only [Request.serve, Request.handler, Procedure.run_bind, Procedure.pure_eq,
      Procedure.run_done]
    obtain hs | ⟨value, hs⟩ := run_login foreign user pwd token s
    · rw [hs]
      exact settles_of_kept h trivial
    · rw [hs]
      exact settles_of_kept h trivial

end

theorem kept_empty : Store.empty.sharing.Kept where
  counter_eq := rfl
  lists_iff user md5 filename := by simp [Store.sharing, Store.empty, Tables.empty, Sharing.lists, Sharing.flagged]
  single _ _ := Nat.zero_le _
  first user md5 filename h := by
    obtain ⟨r, hr, -⟩ := h
    cases hr

/-- Along every serial run that meets the condition sharing is coherent, and the next
request keeps it so exactly when it meets the condition. -/
theorem coherent_of_runs {requests : List Request} (h : Runs coherentOk Store.empty requests) :
    (serveAll Store.empty requests).sharing.Coherent ∧
      ∀ r : Request, (r.serve (serveAll Store.empty requests)).sharing.Coherent ↔
        coherentOk r (serveAll Store.empty requests) := by
  have hkept : (serveAll Store.empty requests).sharing.Kept :=
    Runs.invariant (I := fun s => s.sharing.Kept) (fun r s hs _ hok => (settles_serve hs r).1 hok)
      kept_empty h
  exact ⟨hkept.toCoherent, fun r => ⟨(settles_serve hkept r).2, fun hok =>
    ((settles_serve hkept r).1 hok).toCoherent⟩⟩

theorem coherent_upload_share_cancel :
    (serveAll Store.empty
      [.upload (bytes "t") (bytes "u") (bytes "f") (bytes "m") 1 (bytes "id") (bytes "url"),
        .shareFile .ziplist (bytes "t") (bytes "u") (bytes "m") (bytes "f"),
        .cancelShareFile (bytes "u") (bytes "m") (bytes "f")]).sharing.Coherent := by
  refine (coherent_of_runs ?_).1
  exact ⟨Finset.notMem_empty _, fun _ => by decide, trivial, fun _ _ => by decide, trivial,
    fun _ => ⟨⟨bytes "u", bytes "m", bytes "t", bytes "f", 0⟩, by decide, by decide⟩, trivial⟩

/-- Cancelling a share that is not one's own lowers the counter and leaves the row. -/
theorem not_coherent_foreign_cancel :
    Runs (fun _ _ => True) Store.empty
      [.upload (bytes "t") (bytes "u") (bytes "f") (bytes "m") 1 (bytes "id") (bytes "url"),
        .shareFile .ziplist (bytes "t") (bytes "u") (bytes "m") (bytes "f"),
        .cancelShareFile (bytes "v") (bytes "m") (bytes "f")] ∧
    ¬ (serveAll Store.empty
      [.upload (bytes "t") (bytes "u") (bytes "f") (bytes "m") 1 (bytes "id") (bytes "url"),
        .shareFile .ziplist (bytes "t") (bytes "u") (bytes "m") (bytes "f"),
        .cancelShareFile (bytes "v") (bytes "m") (bytes "f")]).sharing.Coherent := by
  refine ⟨⟨Finset.notMem_empty _, trivial, trivial, trivial, trivial, trivial, trivial⟩, fun h => ?_⟩
  exact absurd h.counter_eq (by decide)

end HfDfs
