import Mathlib.Data.List.Sort
import Mathlib.Data.Int.Order.Basic
import Mathlib.Logic.Function.Basic
import HfDfs.CString

/-!
# The MySQL tables and the statements the programs build

A statement is represented by what its template says, the `%s` and `%d`
holes being values; the text, its quoting and its length are compared with
that in `StatementTexts`. Strings are compared byte for byte, as under a
binary collation. A table with a primary key is a map on that
key, so two rows with one key cannot be built and an insert that would
make them fails. The other tables are lists in insertion order. Values fit
their columns, and no column holds NULL: the programs write every one.
-/

namespace HfDfs

set_option autoImplicit false

structure FileInfo where
  fileId : CString
  url : CString
  size : Int
  type : CString
  count : Int
deriving DecidableEq, Repr

structure UserFile where
  user : CString
  md5 : CString
  createtime : CString
  filename : CString
  sharedStatus : Int
  pv : Int
deriving DecidableEq, Repr

structure ShareFile where
  user : CString
  md5 : CString
  createtime : CString
  filename : CString
  pv : Int
deriving DecidableEq, Repr

structure User where
  name : CString
  nickname : CString
  password : CString
  phone : CString
  createtime : CString
  email : CString
deriving DecidableEq, Repr

/-- `file_info` is keyed by md5, `user_file_count` by user. -/
structure Tables where
  fileInfo : CString → Option FileInfo
  userFileList : List UserFile
  userFileCount : CString → Option Int
  shareFileList : List ShareFile
  user : List User

/-- The first column of a row, as the program reads it back from the text. -/
inductive Value where
  | int (n : Int)
  | text (s : CString)
deriving DecidableEq, Repr

/-- `atoi` of the copied column. The modelled columns read this way are integers. -/
@[simp] def Value.atoi : Value → Int
  | .int n => n
  | .text _ => 0

@[simp] def Value.str : Value → CString
  | .int _ => []
  | .text s => s

def UserFile.is (user md5 filename : CString) (r : UserFile) : Bool :=
  r.user = user && r.md5 = md5 && r.filename = filename

def ShareFile.is (user md5 filename : CString) (r : ShareFile) : Bool :=
  r.user = user && r.md5 = md5 && r.filename = filename

def ShareFile.isFile (md5 filename : CString) (r : ShareFile) : Bool :=
  r.md5 = md5 && r.filename = filename

theorem UserFile.is_iff {user md5 filename : CString} {r : UserFile} :
    r.is user md5 filename = true ↔ r.user = user ∧ r.md5 = md5 ∧ r.filename = filename := by
  simp [UserFile.is, and_assoc]

theorem ShareFile.is_iff {user md5 filename : CString} {r : ShareFile} :
    r.is user md5 filename = true ↔ r.user = user ∧ r.md5 = md5 ∧ r.filename = filename := by
  simp [ShareFile.is, and_assoc]

theorem ShareFile.isFile_iff {md5 filename : CString} {r : ShareFile} :
    r.isFile md5 filename = true ↔ r.md5 = md5 ∧ r.filename = filename := by
  simp [ShareFile.isFile]

/-- The SELECT statements of which only the first row's first column is wanted. -/
inductive Query where
  | fileInfoCount (md5 : CString)
  | fileInfoFileId (md5 : CString)
  | userFileCount (user : CString)
  /-- the same, written with other quotes -/
  | userFileCountQuoted (user : CString)
  | userFileAll (user md5 filename : CString)
  | userFileSharedStatus (user md5 filename : CString)
  | userFilePv (user md5 filename : CString)
  | shareFileAll (md5 filename : CString)
  | shareFilePv (md5 filename : CString)
  | userAll (name : CString)
  | userPassword (name : CString)

/-- The first column of the result set, row by row. -/
@[simp] def Query.result (t : Tables) : Query → List Value
  | .fileInfoCount md5 => (t.fileInfo md5).toList.map fun r => .int r.count
  | .fileInfoFileId md5 => (t.fileInfo md5).toList.map fun r => .text r.fileId
  | .userFileCount user | .userFileCountQuoted user => (t.userFileCount user).toList.map .int
  | .userFileAll user md5 filename =>
    (t.userFileList.filter (·.is user md5 filename)).map fun r => .text r.user
  | .userFileSharedStatus user md5 filename =>
    (t.userFileList.filter (·.is user md5 filename)).map fun r => .int r.sharedStatus
  | .userFilePv user md5 filename =>
    (t.userFileList.filter (·.is user md5 filename)).map fun r => .int r.pv
  | .shareFileAll md5 filename =>
    (t.shareFileList.filter (·.isFile md5 filename)).map fun r => .text r.user
  | .shareFilePv md5 filename =>
    (t.shareFileList.filter (·.isFile md5 filename)).map fun r => .int r.pv
  | .userAll name => (t.user.filter (·.name = name)).map fun r => .text r.name
  | .userPassword name => (t.user.filter (·.name = name)).map fun r => .text r.password

/-- The statements passed to `mysql_query`. -/
inductive Statement where
  | setNames
  /-- a SELECT whose result set is not fetched -/
  | select (q : Query)
  | insertFileInfo (md5 fileId url : CString) (size : Int) (type : CString) (count : Int)
  | insertUserFile (user md5 createtime filename : CString) (sharedStatus pv : Int)
  | insertUserFileCount (user : CString) (count : Int)
  | insertShareFile (user md5 createtime filename : CString) (pv : Int)
  | insertUser (row : User)
  | updateFileInfoCount (count : Int) (md5 : CString)
  | updateUserFileCount (count : Int) (user : CString)
  | updateSharedStatus (sharedStatus : Int) (user md5 filename : CString)
  | updateUserFilePv (pv : Int) (user md5 filename : CString)
  | updateShareFilePv (pv : Int) (md5 filename : CString)
  | deleteFileInfo (md5 : CString)
  | deleteUserFile (user md5 filename : CString)
  | deleteUserFileCount (user : CString)
  | deleteShareFile (user md5 filename : CString)

/-- The effect of a statement on the tables, or `none` for a duplicate key. An
update or delete that matches no row succeeds. -/
@[simp] def Statement.apply (t : Tables) : Statement → Option Tables
  | .setNames => some t
  | .select _ => some t
  | .insertFileInfo md5 fileId url size type count =>
    match t.fileInfo md5 with
    | some _ => none
    | none => some { t with
        fileInfo := Function.update t.fileInfo md5 (some ⟨fileId, url, size, type, count⟩) }
  | .insertUserFile user md5 createtime filename sharedStatus pv => some { t with
      userFileList := t.userFileList ++ [⟨user, md5, createtime, filename, sharedStatus, pv⟩] }
  | .insertUserFileCount user count =>
    match t.userFileCount user with
    | some _ => none
    | none => some { t with userFileCount := Function.update t.userFileCount user (some count) }
  | .insertShareFile user md5 createtime filename pv => some { t with
      shareFileList := t.shareFileList ++ [⟨user, md5, createtime, filename, pv⟩] }
  | .insertUser row =>
    if t.user.any fun r => r.name = row.name || r.nickname = row.nickname then none
    else some { t with user := t.user ++ [row] }
  | .updateFileInfoCount count md5 => some { t with
      fileInfo := Function.update t.fileInfo md5
        ((t.fileInfo md5).map fun r => { r with count := count }) }
  | .updateUserFileCount count user => some { t with
      userFileCount := Function.update t.userFileCount user
        ((t.userFileCount user).map fun _ => count) }
  | .updateSharedStatus sharedStatus user md5 filename => some { t with
      userFileList := t.userFileList.map fun r =>
        if r.is user md5 filename then { r with sharedStatus := sharedStatus } else r }
  | .updateUserFilePv pv user md5 filename => some { t with
      userFileList := t.userFileList.map fun r =>
        if r.is user md5 filename then { r with pv := pv } else r }
  | .updateShareFilePv pv md5 filename => some { t with
      shareFileList := t.shareFileList.map fun r =>
        if r.isFile md5 filename then { r with pv := pv } else r }
  | .deleteFileInfo md5 => some { t with fileInfo := Function.update t.fileInfo md5 none }
  | .deleteUserFile user md5 filename => some { t with
      userFileList := t.userFileList.filter fun r => !r.is user md5 filename }
  | .deleteUserFileCount user => some { t with
      userFileCount := Function.update t.userFileCount user none }
  | .deleteShareFile user md5 filename => some { t with
      shareFileList := t.shareFileList.filter fun r => !r.is user md5 filename }

/-! ## Statements that return a list -/

/-- The three `cmd` values of the file list. -/
inductive FileOrder where
  | normal
  | pvasc
  | pvdesc
deriving DecidableEq, Repr

/-- `select md5, filename, pv from share_file_list order by pv desc` -/
def Tables.shareFilesByPv (t : Tables) : List ShareFile :=
  t.shareFileList.insertionSort fun a b => b.pv ≤ a.pv

/-- The rows of a user joined with `file_info` on md5. -/
def Tables.userFiles (t : Tables) (user : CString) : List (UserFile × FileInfo) :=
  (t.userFileList.filter (·.user = user)).filterMap fun r => (t.fileInfo r.md5).map (r, ·)

def FileOrder.sort (files : List (UserFile × FileInfo)) : FileOrder → List (UserFile × FileInfo)
  | .normal => files
  | .pvasc => files.insertionSort fun a b => a.1.pv ≤ b.1.pv
  | .pvdesc => files.insertionSort fun a b => b.1.pv ≤ a.1.pv

/-- The listing of a user with `limit start, count`, which is a syntax error for a
negative number. -/
def Tables.userFilesLimit (t : Tables) (order : FileOrder) (user : CString) (start count : Int) :
    Option (List (UserFile × FileInfo)) :=
  if start < 0 ∨ count < 0 then none
  else some (((order.sort (t.userFiles user)).drop start.toNat).take count.toNat)

def Tables.holds (t : Tables) (user md5 filename : CString) : Bool :=
  t.userFileList.any (·.is user md5 filename)

def Tables.shared (t : Tables) (md5 filename : CString) : Bool :=
  t.shareFileList.any (·.isFile md5 filename)

def Tables.empty : Tables := ⟨fun _ => none, [], fun _ => none, [], []⟩

end HfDfs
