import HfDfs.Library.QuotedText
import HfDfs.Decimal
import HfDfs.Mysql.Tables

/-!
# The text of the statements

`sprintf` fills the template of a statement without escaping anything. The
server splits the text it receives by the rules for quoted strings, in its
default mode: both quotes delimit, a doubled quote stands for one, and a
backslash escapes the next byte. Whether the text fits its array is asked
where the statements are sent.
-/

namespace HfDfs

set_option autoImplicit false

open Quoting

/-- What a backslash and the byte behind it stand for. Before `%` and `_` the
backslash is kept, since the two are escaped for `LIKE`. -/
def unescape (c : UInt8) : CString :=
  if c = 0x30 then [0x00]
  else if c = 0x62 then [0x08]
  else if c = 0x6e then [0x0a]
  else if c = 0x72 then [0x0d]
  else if c = 0x74 then [0x09]
  else if c = 0x5a then [0x1a]
  else if c = 0x25 || c = 0x5f then [0x5c, c]
  else [c]

theorem unescape_cases (c : UInt8) :
    (unescape c).length = 1 ∨ ((c = 0x25 ∨ c = 0x5f) ∧ unescape c = [0x5c, c]) := by
  grind [unescape]

theorem unescape_eq_iff (c : UInt8) : unescape c = [0x5c, c] ↔ c = 0x25 ∨ c = 0x5f := by
  constructor
  · intro h
    rcases unescape_cases c with hlength | ⟨hc, -⟩
    · rw [h] at hlength
      cases hlength
    · exact hc
  · rintro (rfl | rfl) <;> rfl

def mysqlLexicon : Lexicon UInt8 where
  isQuote c := c = 0x27 || c = 0x22
  escape := 0x5c
  unescape := unescape
  unescape_length c := by
    rcases unescape_cases c with h | ⟨-, h⟩
    · omega
    · rw [h]
      rfl
  unescape_eq c hlength := by
    rcases unescape_cases c with h | ⟨-, h⟩
    · omega
    · exact h

theorem isQuote_iff (c : UInt8) : mysqlLexicon.isQuote c = true ↔ c = 0x27 ∨ c = 0x22 := by
  simp [mysqlLexicon]

inductive Part where
  | lit (text : String)
  /-- `'%s'` -/
  | str (value : CString)
  /-- `"%s"` -/
  | dstr (value : CString)
  /-- `%d` -/
  | num (n : Int)

def Part.segment : Part → Segment UInt8
  | .lit text => .text (bytes text)
  | .str value => .hole 0x27 value
  | .dstr value => .hole 0x22 value
  | .num n => .text (decimal n)

abbrev Template := List Part

def Template.segments (template : Template) : List (Segment UInt8) := template.map Part.segment

def Template.sprintf (template : Template) : CString := render template.segments

/-! ## The templates

One statement may have several: the programs write the same one in
different words. -/

def whereUserMd5Filename (user md5 filename : CString) : Template :=
  [.lit " where user = ", .str user, .lit " and md5 = ", .str md5,
    .lit " and filename = ", .str filename]

def whereMd5Filename (md5 filename : CString) : Template :=
  [.lit " where md5 = ", .str md5, .lit " and filename = ", .str filename]

def Query.templates : Query → List Template
  | .fileInfoCount md5 => [[.lit "select count from file_info where md5 = ", .str md5]]
  | .fileInfoFileId md5 => [[.lit "select file_id from file_info where md5 = ", .str md5]]
  | .userFileCount user =>
    [[.lit "select count from user_file_count where user = ", .str user]]
  -- in `myfiles_cgi.c` and `sharefiles_cgi.c`
  | .userFileCountQuoted user =>
    [[.lit "select count from user_file_count where user=", .dstr user]]
  | .userFileAll user md5 filename =>
    [.lit "select * from user_file_list" :: whereUserMd5Filename user md5 filename]
  | .userFileSharedStatus user md5 filename =>
    [.lit "select shared_status from user_file_list" :: whereUserMd5Filename user md5 filename]
  | .userFilePv user md5 filename =>
    [.lit "select pv from user_file_list" :: whereUserMd5Filename user md5 filename]
  | .shareFileAll md5 filename =>
    [.lit "select * from share_file_list" :: whereMd5Filename md5 filename]
  | .shareFilePv md5 filename =>
    [.lit "select pv from share_file_list" :: whereMd5Filename md5 filename]
  | .userAll name => [[.lit "select * from user where name = ", .str name]]
  | .userPassword name => [[.lit "select password from user where name=", .dstr name]]

def Statement.templates : Statement → List Template
  | .setNames => [[.lit "set names utf8"]]
  | .select q => q.templates
  | .insertFileInfo md5 fileId url size type count =>
    [[.lit "insert into file_info (md5, file_id, url, size, type, count) values (",
      .str md5, .lit ", ", .str fileId, .lit ", ", .str url, .lit ", ",
      -- the template has `'%ld'` here
      .str (decimal size), .lit ", ", .str type, .lit ", ", .num count, .lit ")"]]
  | .insertUserFile user md5 createtime filename sharedStatus pv =>
    [[.lit "insert into user_file_list(user, md5, createtime, filename, shared_status, pv)",
      .lit " values (", .str user, .lit ", ", .str md5, .lit ", ", .str createtime, .lit ", ",
      .str filename, .lit ", ", .num sharedStatus, .lit ", ", .num pv, .lit ")"]]
  | .insertUserFileCount user count =>
    [[.lit "insert into user_file_count (user, count) values(", .str user, .lit ", ",
        .num count, .lit ")"],
      [.lit " insert into user_file_count (user, count) values(", .str user, .lit ", ",
        .num count, .lit ")"]]
  | .insertShareFile user md5 createtime filename pv =>
    [[.lit "insert into share_file_list (user, md5, createtime, filename, pv) values (",
      .str user, .lit ", ", .str md5, .lit ", ", .str createtime, .lit ", ", .str filename,
      .lit ", ", .num pv, .lit ")"]]
  | .insertUser row =>
    [[.lit "insert into user (name, nickname, password, phone, createtime, email) values (",
      .str row.name, .lit ", ", .str row.nickname, .lit ", ", .str row.password, .lit ", ",
      .str row.phone, .lit ", ", .str row.createtime, .lit ", ", .str row.email, .lit ")"]]
  | .updateFileInfoCount count md5 =>
    [[.lit "update file_info set count = ", .num count, .lit " where md5 = ", .str md5],
      -- in `del_file`
      [.lit "update file_info set count=", .num count, .lit " where md5 = ", .str md5]]
  | .updateUserFileCount count user =>
    [[.lit "update user_file_count set count = ", .num count, .lit " where user = ", .str user]]
  | .updateSharedStatus sharedStatus user md5 filename =>
    [.lit "update user_file_list set shared_status = " :: .num sharedStatus ::
      whereUserMd5Filename user md5 filename]
  | .updateUserFilePv pv user md5 filename =>
    [.lit "update user_file_list set pv = " :: .num pv ::
      whereUserMd5Filename user md5 filename]
  | .updateShareFilePv pv md5 filename =>
    [.lit "update share_file_list set pv = " :: .num pv :: whereMd5Filename md5 filename]
  | .deleteFileInfo md5 => [[.lit "delete from file_info where md5 = ", .str md5]]
  | .deleteUserFile user md5 filename =>
    [.lit "delete from user_file_list" :: whereUserMd5Filename user md5 filename]
  | .deleteUserFileCount user => [[.lit "delete from user_file_count where user = ", .str user]]
  | .deleteShareFile user md5 filename =>
    [.lit "delete from share_file_list" :: whereUserMd5Filename user md5 filename]

def FileOrder.clause : FileOrder → String
  | .normal => " and file_info.md5 = user_file_list.md5 limit "
  | .pvasc => " and file_info.md5 = user_file_list.md5  order by pv asc limit "
  | .pvdesc => " and file_info.md5 = user_file_list.md5 order by pv desc limit "

/-- The file list of a user. -/
def FileOrder.template (order : FileOrder) (user : CString) (start count : Int) : Template :=
  [.lit "select user_file_list.*, file_info.url, file_info.size, file_info.type",
    .lit " from file_info, user_file_list where user = ", .str user, .lit order.clause,
    .num start, .lit ", ", .num count]

end HfDfs
