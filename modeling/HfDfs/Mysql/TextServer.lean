import HfDfs.StatementTexts

/-!
# A server that reads the texts

What MySQL makes of a statement one of whose strings has broken out of its
quotes. The letters before the first string are those of the template, so
the table and the columns are known; the condition behind `where` and the
values of an INSERT are read from the text. `or` binds weaker than `and`, a
value that stands alone is true when it begins with a number other than 0,
and a truth value that is stored is 1 or 0. A text that is neither is a
syntax error. Tables with a key are searched in the order of their index.
-/

namespace HfDfs

set_option autoImplicit false

open Quoting

/-! ## Words -/

inductive Word where
  | literal (value : CString)
  | name (text : CString)
  | sign (c : UInt8)
deriving DecidableEq, Repr

/-- `( ) , =` -/
def isSign (c : UInt8) : Bool := c = 0x28 || c = 0x29 || c = 0x2c || c = 0x3d

/-- The letters read so far are a word of their own. -/
def flush (letters : CString) (rest : List Word) : List Word :=
  if letters.isEmpty then rest else .name letters :: rest

def wordsFrom : CString → List (Token UInt8) → List Word
  | letters, [] => flush letters []
  | letters, .literal value :: rest => flush letters (.literal value :: wordsFrom [] rest)
  | letters, .code c :: rest =>
    if c = 0x20 then flush letters (wordsFrom [] rest)
    else if isSign c then flush letters (.sign c :: wordsFrom [] rest)
    else wordsFrom (letters ++ [c]) rest

def words (text : CString) : Option (List Word) :=
  (mysqlLexicon.lex .outside text).map (wordsFrom [])

/-! ## Conditions -/

/-- The columns of a row with their values. -/
abbrev Row := List (CString × CString)

def Word.value (row : Row) : Word → CString
  | .literal value => value
  | .name text => (row.lookup text).getD text
  | .sign c => [c]

inductive Comparison where
  | equal (a b : Word)
  | alone (a : Word)
deriving DecidableEq, Repr

def Comparison.holds (row : Row) : Comparison → Bool
  | .equal a b => a.value row = b.value row
  | .alone a => strtol (a.value row) ≠ 0

def readComparison : List Word → Option Comparison
  | [a, .sign 0x3d, b] => some (.equal a b)
  | [a] => some (.alone a)
  | _ => none

/-- Comparisons joined by `and`, and those by `or`. -/
abbrev Condition := List (List Comparison)

def Condition.holds (condition : Condition) (row : Row) : Bool :=
  condition.any fun conjuncts => conjuncts.all (·.holds row)

def readCondition (text : List Word) : Option Condition :=
  (text.splitOn (.name (bytes "or"))).mapM fun conjuncts =>
    (conjuncts.splitOn (.name (bytes "and"))).mapM readComparison

/-- What is behind the first word `name`. -/
def behind (name : String) (text : List Word) : List Word :=
  (text.dropWhile (· ≠ .name (bytes name))).drop 1

def readWhere (text : List Word) : Option Condition := readCondition (behind "where" text)

/-! ## Values -/

/-- A value as it is stored. -/
def readValue : List Word → Option CString
  | [.literal value] => some value
  | [.name text] => some text
  | text => (readCondition text).map fun condition =>
    if condition.holds [] then bytes "1" else bytes "0"

/-- The list in the parentheses behind `values`. -/
def readValues (text : List Word) : Option (List CString) :=
  match behind "values" text with
  | .sign 0x28 :: text =>
    if text.getLast? = some (.sign 0x29) then
      (text.dropLast.splitOn (.sign 0x2c)).mapM readValue
    else none
  | _ => none

/-! ## Rows -/

def FileInfo.columns (md5 : CString) (r : FileInfo) : Row :=
  [(bytes "md5", md5), (bytes "file_id", r.fileId), (bytes "url", r.url),
    (bytes "size", decimal r.size), (bytes "type", r.type), (bytes "count", decimal r.count)]

def UserFile.columns (r : UserFile) : Row :=
  [(bytes "user", r.user), (bytes "md5", r.md5), (bytes "createtime", r.createtime),
    (bytes "filename", r.filename), (bytes "shared_status", decimal r.sharedStatus),
    (bytes "pv", decimal r.pv)]

def ShareFile.columns (r : ShareFile) : Row :=
  [(bytes "user", r.user), (bytes "md5", r.md5), (bytes "createtime", r.createtime),
    (bytes "filename", r.filename), (bytes "pv", decimal r.pv)]

def User.columns (r : User) : Row :=
  [(bytes "name", r.name), (bytes "nickname", r.nickname), (bytes "password", r.password),
    (bytes "phone", r.phone), (bytes "createtime", r.createtime), (bytes "email", r.email)]

def countColumns (user : CString) (count : Int) : Row :=
  [(bytes "user", user), (bytes "count", decimal count)]

/-- The keys of the two tables that have one. -/
structure Index where
  md5s : List CString
  users : List CString

namespace Tables

variable (t : Tables) (index : Index) (condition : Condition)

def fileInfoWhere : List FileInfo :=
  index.md5s.filterMap fun md5 => (t.fileInfo md5).filter (condition.holds <| ·.columns md5)

def userFileCountWhere : List Int :=
  index.users.filterMap fun user =>
    (t.userFileCount user).filter (condition.holds <| countColumns user ·)

def userFilesWhere : List UserFile := t.userFileList.filter (condition.holds ·.columns)

def shareFilesWhere : List ShareFile := t.shareFileList.filter (condition.holds ·.columns)

def usersWhere : List User := t.user.filter (condition.holds ·.columns)

end Tables

def Query.resultWhere (t : Tables) (index : Index) (condition : Condition) : Query → List Value
  | .fileInfoCount _ => (t.fileInfoWhere index condition).map (.int ·.count)
  | .fileInfoFileId _ => (t.fileInfoWhere index condition).map (.text ·.fileId)
  | .userFileCount _ | .userFileCountQuoted _ => (t.userFileCountWhere index condition).map .int
  | .userFileAll _ _ _ => (t.userFilesWhere condition).map (.text ·.user)
  | .userFileSharedStatus _ _ _ => (t.userFilesWhere condition).map (.int ·.sharedStatus)
  | .userFilePv _ _ _ => (t.userFilesWhere condition).map (.int ·.pv)
  | .shareFileAll _ _ => (t.shareFilesWhere condition).map (.text ·.user)
  | .shareFilePv _ _ => (t.shareFilesWhere condition).map (.int ·.pv)
  | .userAll _ => (t.usersWhere condition).map (.text ·.name)
  | .userPassword _ => (t.usersWhere condition).map (.text ·.password)

/-- Updates and deletions. -/
def Statement.applyWhere (t : Tables) (condition : Condition) : Statement → Tables
  | .updateFileInfoCount count _ => { t with
      fileInfo := fun md5 => (t.fileInfo md5).map fun r =>
        if condition.holds (r.columns md5) then { r with count := count } else r }
  | .updateUserFileCount count _ => { t with
      userFileCount := fun user => (t.userFileCount user).map fun n =>
        if condition.holds (countColumns user n) then count else n }
  | .updateSharedStatus sharedStatus _ _ _ => { t with
      userFileList := t.userFileList.map fun r =>
        if condition.holds r.columns then { r with sharedStatus := sharedStatus } else r }
  | .updateUserFilePv pv _ _ _ => { t with
      userFileList := t.userFileList.map fun r =>
        if condition.holds r.columns then { r with pv := pv } else r }
  | .updateShareFilePv pv _ _ => { t with
      shareFileList := t.shareFileList.map fun r =>
        if condition.holds r.columns then { r with pv := pv } else r }
  | .deleteFileInfo _ => { t with
      fileInfo := fun md5 => (t.fileInfo md5).filter fun r => !condition.holds (r.columns md5) }
  | .deleteUserFile _ _ _ => { t with
      userFileList := t.userFileList.filter fun r => !condition.holds r.columns }
  | .deleteUserFileCount _ => { t with
      userFileCount := fun user => (t.userFileCount user).filter fun n =>
        !condition.holds (countColumns user n) }
  | .deleteShareFile _ _ _ => { t with
      shareFileList := t.shareFileList.filter fun r => !condition.holds r.columns }
  | _ => t

/-- The statement with the values that are in its text. -/
def Statement.withValues : Statement → List CString → Option Statement
  | .insertFileInfo .., [md5, fileId, url, size, type, count] =>
    some (.insertFileInfo md5 fileId url (strtol size) type (strtol count))
  | .insertUserFile .., [user, md5, createtime, filename, sharedStatus, pv] =>
    some (.insertUserFile user md5 createtime filename (strtol sharedStatus) (strtol pv))
  | .insertUserFileCount .., [user, count] => some (.insertUserFileCount user (strtol count))
  | .insertShareFile .., [user, md5, createtime, filename, pv] =>
    some (.insertShareFile user md5 createtime filename (strtol pv))
  | .insertUser _, [name, nickname, password, phone, createtime, email] =>
    some (.insertUser ⟨name, nickname, password, phone, createtime, email⟩)
  | _, _ => none

def Statement.execute (t : Tables) (statement : Statement) (text : List Word) : Option Tables :=
  match statement with
  | .setNames => some t
  | .select _ => (readWhere text).map fun _ => t
  | .insertFileInfo .. | .insertUserFile .. | .insertUserFileCount .. | .insertShareFile ..
  | .insertUser .. => do (← statement.withValues (← readValues text)).apply t
  | _ => (readWhere text).map fun condition => statement.applyWhere t condition

def Command.words (c : Command) : Option (List Word) :=
  c.templates.head?.bind fun template => HfDfs.words template.printed

/-- Listings are not read: none of their strings is needed here. -/
def textServer (index : Index) : Server
  | .mysqlQuery statement, t =>
    match (Command.mysqlQuery statement).words.bind (statement.execute t) with
    | none => (false, t)
    | some t' => (true, t')
  | .processResultOne query save, t =>
    match (Command.processResultOne query save).words.bind readWhere with
    | none => (.failed, t)
    | some condition => (resultOne (query.resultWhere t index condition) save, t)
  | c, t => (c.failed, t)

end HfDfs
