import Mathlib.Algebra.GroupWithZero.Nat
import HfDfs.Cgi.Commands
import HfDfs.StatementTexts

/-!
# How long the statements get

`sql_cmd` has room for 511 characters and a NUL. A text is as long as its
template without the holes and the strings that go into them, so the sums of
a few lengths decide whether it fits.
-/

namespace HfDfs

set_option autoImplicit false

open Procedures Procedures.Procedure Quoting

/-! ## The length of a text -/

def Part.width : Part → Nat
  | .lit text => (bytes text).length
  | .str value | .dstr value => value.length + 2
  | .num n => (decimal (int32 n)).length

theorem length_printed (template : Template) :
    template.printed.length = (template.map Part.width).sum := by
  induction template with
  | nil => rfl
  | cons part rest ih =>
    rw [List.map_cons, List.sum_cons, ← ih]
    cases part with
    | lit text => exact List.length_append
    | num n => exact List.length_append
    | str value | dstr value =>
      change (_ :: (value ++ _ :: Template.printed rest)).length = _
      simp only [List.length_cons, List.length_append, Part.width]
      omega

/-- An `int` has at most ten digits and a sign. -/
theorem length_decimal_int32_le (n : Int) : (decimal (int32 n)).length ≤ 11 := by
  have hlow : -2 ^ 31 ≤ int32 n := by
    rw [int32]
    exact Int.le_bmod (by decide)
  have hhigh : int32 n < 2 ^ 31 := by
    rw [int32]
    exact Int.bmod_lt (by decide)
  have hdigits : ∀ m : Nat, m < 10 ^ 10 → (digits m).length ≤ 10 := by
    intro m hm
    rw [digits, List.length_map]
    exact (Nat.length_toDigits_le_iff (by decide) (by decide)).mpr hm
  generalize int32 n = k at *
  cases k with
  | ofNat m =>
    have hlength := hdigits m (by simp at hhigh; omega)
    rw [decimal]
    omega
  | negSucc m =>
    have hlength := hdigits (m + 1) (by omega)
    rw [decimal, List.length_cons]
    omega

/-! ## The statements -/

theorem fits_iff (c : Command) :
    c.Fits ↔ ∀ template ∈ c.templates, (template.map Part.width).sum < 512 := by
  simp only [Command.Fits, length_printed, sqlMaxLen]

section Fits

variable {now user md5 filename fileid url type : CString} {c : Command}

theorem length_decimal_int32_zero : (decimal (int32 0)).length = 1 := by
  rw [int32_eq (by decide) (by decide)]
  decide

theorem length_decimal_int32_one : (decimal (int32 1)).length = 1 := by
  rw [int32_eq (by decide) (by decide)]
  decide

theorem fits_insertUserFile : (Command.mysqlQuery (.insertUserFile user md5 now filename 0 0)).Fits ↔
    user.length + md5.length + now.length + filename.length + 108 < 512 := by
  simp [fits_iff, Command.templates, Statement.templates, Part.width, bytes_eq, length_decimal_int32_zero]
  omega

theorem fits_insertShareFile : (Command.mysqlQuery (.insertShareFile user md5 now filename 0)).Fits ↔
    user.length + md5.length + now.length + filename.length + 92 < 512 := by
  simp [fits_iff, Command.templates, Statement.templates, Part.width, bytes_eq, length_decimal_int32_zero]
  omega

theorem fits_insertFileInfo {size : Int} :
    (Command.mysqlQuery (.insertFileInfo md5 fileid url size type 1)).Fits ↔
      md5.length + fileid.length + url.length + (decimal size).length + type.length + 91 < 512 := by
  simp [fits_iff, Command.templates, Statement.templates, Part.width, bytes_eq, length_decimal_int32_one]
  omega

theorem fits_countCommand (h : CountCommand user c) (huser : user.length < 128) : c.Fits := by
  cases h with
  | update count =>
    have hcount := length_decimal_int32_le count
    simp [fits_iff, Command.templates, Statement.templates, Part.width, bytes_eq]
    omega
  | _ =>
    simp [fits_iff, Command.templates, Statement.templates, Query.templates, Part.width, bytes_eq,
      length_decimal_int32_one]
    omega

/-- The INSERT into `user_file_list` is the longest. -/
theorem fits_fileCommand (h : FileCommand now user md5 filename c) (huser : user.length < 128)
    (hmd5 : md5.length < 256)
    (hlong : user.length + md5.length + now.length + filename.length + 108 < 512) : c.Fits := by
  cases h with
  | ropConnectdbNopwd | msqlConn | redis | removeFileFromStorage => exact List.forall_mem_nil _
  | count h =>
    rcases h with h | h
    · exact fits_countCommand h huser
    · exact fits_countCommand h (by decide)
  | insertUserFile => exact fits_insertUserFile.mpr hlong
  | updateFileInfoCount n | updateUserFilePv n | updateShareFilePv n =>
    have hn := length_decimal_int32_le n
    simp [fits_iff, Command.templates, Statement.templates, whereUserMd5Filename,
      whereMd5Filename, Part.width, bytes_eq]
    omega
  | setNames =>
    simp [fits_iff, Command.templates, Statement.templates, Part.width, bytes_eq]
  | _ =>
    simp [fits_iff, Command.templates, Statement.templates, Query.templates,
      whereUserMd5Filename, whereMd5Filename, Part.width, bytes_eq, length_decimal_int32_zero,
      length_decimal_int32_one]
    omega

end Fits

/-! ## The requests -/

/-- Every text fits into `sql_cmd`, and the suffix into its array. -/
structure RequestFits (now user md5 filename fileid url : CString) (size : Int) : Prop where
  share : ∀ enc, (shareFile enc now user md5 filename).Issues Command.Fits
  del : ∀ enc, (delFile enc user md5 filename).Issues Command.Fits
  cancel : (cancelShareFile user md5 filename).Issues Command.Fits
  save : (saveFile now user md5 filename).Issues Command.Fits
  store : (storeFileinfoToMysql now user filename md5 size fileid url).Issues Command.Fits
  suffix : (getFileSuffix filename).length < suffixLen

/-- The buffers are large enough if three sums of lengths are small: of the strings in the row of
the user's list, of those in the row of `file_info`, and the suffix. -/
theorem requestFits_iff (now user md5 filename fileid url : CString) (size : Int)
    (huser : user.length < 128) (hmd5 : md5.length < 256) :
    RequestFits now user md5 filename fileid url size ↔
      user.length + md5.length + now.length + filename.length + 108 < 512 ∧
      md5.length + fileid.length + url.length + (decimal size).length +
        (getFileSuffix filename).length + 91 < 512 ∧
      (getFileSuffix filename).length < 8 := by
  constructor
  · intro h
    have hinfo : (Command.mysqlQuery
        (.insertFileInfo md5 fileid url size (getFileSuffix filename) 1)).Fits :=
      ((h.store.2 true).2 true).1
    have hrow : (Command.mysqlQuery (.insertUserFile user md5 now filename 0 0)).Fits :=
      (((h.store.2 true).2 true).2 true).1
    exact ⟨fits_insertUserFile.mp hrow, fits_insertFileInfo.mp hinfo, h.suffix⟩
  · rintro ⟨hlong, hinfo, hsuffix⟩
    have hfile : ∀ c, FileCommand now user md5 filename c → c.Fits := fun c hc =>
      fits_fileCommand hc huser hmd5 hlong
    refine ⟨fun enc => ?_, fun enc => ?_, ?_, ?_, ?_, hsuffix⟩
    · refine (issues_shareFile enc now user md5 filename).mono fun c hc => ?_
      rcases hc with hc | rfl
      · exact hfile c hc
      · exact fits_insertShareFile.mpr (by omega)
    · exact (issues_delFile enc now user md5 filename).mono hfile
    · exact (issues_cancelShareFile now user md5 filename).mono hfile
    · exact (issues_saveFile now user md5 filename).mono hfile
    · refine (issues_storeFileinfoToMysql now user md5 filename size fileid url).mono fun c hc => ?_
      rcases hc with hc | rfl
      · exact hfile c hc
      · exact fits_insertFileInfo.mpr hinfo

theorem requestFits_report :
    RequestFits (bytes "2024-05-01 10:20:30") (bytes "mike") (bytes "0cc175b9c0f1b6a831c399e269772661")
      (bytes "report.pdf") (bytes "group1/M00/00/00/wKgB.pdf")
      (bytes "http://10.0.0.2:80/group1/M00/00/00/wKgB.pdf") 5120 :=
  (requestFits_iff _ _ _ _ _ _ _ (by decide) (by decide)).mpr
    ⟨by decide, by decide, by decide⟩

/-- A suffix of eight letters, and a user, an md5 and a filename of the greatest lengths. -/
theorem not_requestFits_markdown :
    ¬ RequestFits (bytes "2024-05-01 10:20:30") (bytes "mike") (bytes "0cc175b9c0f1b6a831c399e269772661")
      (bytes "notes.markdown") (bytes "group1/M00/00/00/wKgB")
      (bytes "http://10.0.0.2:80/group1/M00/00/00/wKgB") 5120 ∧
    ¬ RequestFits (bytes "2024-05-01 10:20:30") (List.replicate 127 0x75) (List.replicate 255 0x61)
      (List.replicate 255 0x78) (bytes "group1/M00/00/00/wKgB")
      (bytes "http://10.0.0.2:80/group1/M00/00/00/wKgB") 5120 := by
  constructor
  · exact fun h => absurd h.suffix (by decide)
  · intro h
    have hrow := fits_insertUserFile.mp (((h.store.2 true).2 true).2 true).1
    simp only [List.length_replicate] at hrow
    omega

end HfDfs
