import HfDfs.Cgi.Turns
import HfDfs.Properties.SqlMeaning
import HfDfs.Properties.StatementLengths

/-!
# Requests whose statements are in order

A statement is in order when its strings leave the quotes around them alone
and everything fits. Which strings a request brings decides the first; of
the numbers only those that are counted in the tables can be too large. A
request in order is served as it is written, whatever the server makes of
other texts.
-/

namespace HfDfs

set_option autoImplicit false

open Procedures Procedures.Procedure Quoting Zlexcount

/-! ## The strings of a command -/

def Part.Unambiguous : Part → Prop
  | .str value => unambiguous 0x27 value = true
  | .dstr value => unambiguous 0x22 value = true
  | _ => True

theorem separated_command {c : Command} {template : Template} (h : template ∈ c.templates) :
    separated template = true := by
  cases c with
  | mysqlQuery statement => exact separated_templates h
  | processResultOne query save =>
    have hselect : template ∈ (Statement.select query).templates := h
    exact separated_templates hselect
  | selectShareFilesByPv =>
    cases List.mem_singleton.mp h
    decide
  | selectUserFiles order user start count =>
    cases List.mem_singleton.mp h
    cases order <;> rfl
  | _ => cases h

theorem clear_iff (c : Command) :
    c.Clear ↔ ∀ template ∈ c.templates, ∀ part ∈ template, part.Unambiguous := by
  refine forall₂_congr fun template h => ?_
  rw [means_iff_of_separated (separated_command h)]
  constructor
  · intro hvalue part hpart
    have hmem : part.segment ∈ template.segments := List.mem_map_of_mem hpart
    cases part with
    | str value => exact hvalue _ _ hmem
    | dstr value => exact hvalue _ _ hmem
    | lit text => exact trivial
    | num n => exact trivial
  · intro hpart q value hmem
    obtain ⟨part, hmem, hsegment⟩ := List.mem_map.mp hmem
    have := hpart part hmem
    cases part with
    | str text | dstr text =>
      cases hsegment
      exact this
    | lit text | num n => cases hsegment

section Commands

variable {now user md5 filename : CString} {c : Command}

theorem clear_countCommand (h : CountCommand user c) (huser : unambiguous 0x27 user = true) :
    c.Clear := by
  cases h <;> simp [clear_iff, Command.templates, Statement.templates, Query.templates,
    Part.Unambiguous, huser]

theorem clear_fileCommand (h : FileCommand now user md5 filename c)
    (hnow : unambiguous 0x27 now = true) (huser : unambiguous 0x27 user = true)
    (hmd5 : unambiguous 0x27 md5 = true) (hfilename : unambiguous 0x27 filename = true) :
    c.Clear := by
  cases h with
  | count h =>
    rcases h with h | h
    · exact clear_countCommand h huser
    · exact clear_countCommand h (by decide)
  | ropConnectdbNopwd | msqlConn | redis | removeFileFromStorage => exact List.forall_mem_nil _
  | _ =>
    simp [clear_iff, Command.templates, Statement.templates, Query.templates,
      whereUserMd5Filename, whereMd5Filename, Part.Unambiguous, hnow, huser, hmd5, hfilename]

theorem clear_rankingCommand (h : RankingCommand c) : c.Clear := by
  cases h with
  | ropConnectdbNopwd | msqlConn | redis => exact List.forall_mem_nil _
  | setNames | select => simp [clear_iff, Command.templates, Statement.templates, Part.Unambiguous]
  | count =>
    have hname : unambiguous 0x22 shareCountUser = true := by decide
    simp [clear_iff, Command.templates, Query.templates, Part.Unambiguous, hname]

theorem fits_rankingCommand (h : RankingCommand c) : c.Fits := by
  cases h with
  | ropConnectdbNopwd | msqlConn | redis => exact List.forall_mem_nil _
  | setNames | select | count => decide

theorem suffixFits_countCommand (h : CountCommand user c) : c.SuffixFits := by
  cases h <;> exact trivial

theorem suffixFits_fileCommand (h : FileCommand now user md5 filename c) : c.SuffixFits := by
  cases h with
  | count h => exact h.elim suffixFits_countCommand suffixFits_countCommand
  | _ => exact trivial

theorem suffixFits_rankingCommand (h : RankingCommand c) : c.SuffixFits := by
  cases h <;> exact trivial

end Commands

theorem unambiguous_of_append {q : UInt8} {front value : CString}
    (h : unambiguous q (front ++ value) = true) : unambiguous q value = true := by
  induction front with
  | nil => exact h
  | cons c front ih =>
    rw [List.cons_append, unambiguous, Bool.and_eq_true] at h
    exact ih h.2

theorem unambiguous_of_forall {q : UInt8} {value : CString} (h : ∀ c ∈ value, c ≠ q ∧ c ≠ 0x5c) :
    unambiguous q value = true := by
  induction value with
  | nil => rfl
  | cons c rest ih =>
    obtain ⟨⟨hquote, hslash⟩, hrest⟩ := List.forall_mem_cons.mp h
    simp [unambiguous, hquote, hslash, ih hrest]

theorem unambiguous_getFileSuffix {filename : CString} (h : unambiguous 0x27 filename = true) :
    unambiguous 0x27 (getFileSuffix filename) = true := by
  simp only [getFileSuffix]
  split
  · have hsplit : filename = (filename.reverse.dropWhile (· ≠ 0x2e)).reverse ++
        (filename.reverse.takeWhile (· ≠ 0x2e)).reverse := by
      rw [← List.reverse_append, List.takeWhile_append_dropWhile, List.reverse_reverse]
    rw [hsplit] at h
    exact unambiguous_of_append h
  · decide

theorem unambiguous_decimal (n : Int) : unambiguous 0x27 (decimal n) = true := by
  refine unambiguous_of_forall fun c hc => ?_
  rcases mem_decimal hc with hdigit | rfl
  · refine ⟨?_, ?_⟩ <;> rintro rfl <;> revert hdigit <;> decide
  · decide

/-! ## The strings of a request -/

/-- A user, a file and a date that can be written into every statement. -/
@[mk_iff]
structure Wording (now user md5 filename : CString) : Prop where
  clear : ∀ text ∈ [now, user, md5, filename], unambiguous 0x27 text = true
  userFits : user.length < 128
  md5Fits : md5.length < 256
  rowFits : user.length + md5.length + now.length + filename.length + 108 < 512

@[mk_iff]
structure RegisterWording (now user nickName pwd tel email : CString) : Prop where
  clear : ∀ text ∈ [now, user, nickName, pwd, tel, email], unambiguous 0x27 text = true
  fits : user.length + nickName.length + pwd.length + tel.length + now.length + email.length +
    101 < 512

/-- Also the row of `file_info` and the suffix fit. -/
@[mk_iff]
structure UploadWording (now user filename md5 : CString) (size : Int) (fileid url : CString) : Prop
    extends Wording now user md5 filename where
  infoClear : unambiguous 0x27 fileid = true ∧ unambiguous 0x27 url = true
  infoFits : md5.length + fileid.length + url.length + (decimal size).length +
    (getFileSuffix filename).length + 91 < 512
  suffixFits : (getFileSuffix filename).length < suffixLen

def Request.WellWorded : Request → Prop
  | upload now user filename md5 size fileid fdfsFileUrl =>
    UploadWording now user filename md5 size fileid fdfsFileUrl
  | dealMd5 now user md5 filename | saveFile now user md5 filename
  | shareFile _ now user md5 filename => Wording now user md5 filename
  | cancelShareFile user md5 filename | delFile _ user md5 filename
  | pvFile user md5 filename => Wording [] user md5 filename
  | pvShareFile _ md5 filename => Wording [] [] md5 filename
  | getRankingFilelist _ _ => True
  | userRegister now user nickName pwd tel email =>
    RegisterWording now user nickName pwd tel email
  | login _ user _ _ => unambiguous 0x22 user = true

instance (now user md5 filename : CString) : Decidable (Wording now user md5 filename) :=
  decidable_of_iff' _ (wording_iff ..)

instance (now user nickName pwd tel email : CString) :
    Decidable (RegisterWording now user nickName pwd tel email) :=
  decidable_of_iff' _ (registerWording_iff ..)

instance (now user filename md5 : CString) (size : Int) (fileid url : CString) :
    Decidable (UploadWording now user filename md5 size fileid url) :=
  decidable_of_iff' _ (uploadWording_iff ..)

instance : (r : Request) → Decidable r.WellWorded
  | .upload now user filename md5 size fileid url =>
    inferInstanceAs (Decidable (UploadWording now user filename md5 size fileid url))
  | .dealMd5 now user md5 filename | .saveFile now user md5 filename
  | .shareFile _ now user md5 filename =>
    inferInstanceAs (Decidable (Wording now user md5 filename))
  | .cancelShareFile user md5 filename | .delFile _ user md5 filename
  | .pvFile user md5 filename => inferInstanceAs (Decidable (Wording [] user md5 filename))
  | .pvShareFile _ md5 filename => inferInstanceAs (Decidable (Wording [] [] md5 filename))
  | .getRankingFilelist _ _ => .isTrue trivial
  | .userRegister now user nickName pwd tel email =>
    inferInstanceAs (Decidable (RegisterWording now user nickName pwd tel email))
  | .login _ user _ _ => inferInstanceAs (Decidable (unambiguous 0x22 user = true))

/-- What the strings of a command decide. -/
def Command.Worded (c : Command) : Prop := c.Clear ∧ c.Fits ∧ c.SuffixFits

theorem Command.Worded.inOrder {c : Command} (h : c.Worded) (hint : c.InInt) : c.InOrder :=
  ⟨h.1, h.2.1, hint, h.2.2⟩

section Requests

variable {now user md5 filename : CString} {c : Command}

theorem Wording.each (h : Wording now user md5 filename) :
    unambiguous 0x27 now = true ∧ unambiguous 0x27 user = true ∧ unambiguous 0x27 md5 = true ∧
      unambiguous 0x27 filename = true := by
  simpa using h.clear

theorem Wording.fileCommand (h : Wording now user md5 filename)
    (hc : FileCommand now user md5 filename c) : c.Worded := by
  obtain ⟨hnow, huser, hmd5, hfilename⟩ := h.each
  exact ⟨clear_fileCommand hc hnow huser hmd5 hfilename,
    fits_fileCommand hc h.userFits h.md5Fits h.rowFits, suffixFits_fileCommand hc⟩

theorem Wording.insertShareFile (h : Wording now user md5 filename) :
    (Command.mysqlQuery (.insertShareFile user md5 now filename 0)).Worded := by
  refine ⟨?_, fits_insertShareFile.mpr (by have := h.rowFits; omega), trivial⟩
  simp [clear_iff, Command.templates, Statement.templates, Part.Unambiguous, h.each]

theorem UploadWording.insertFileInfo {size : Int} {fileid url : CString}
    (h : UploadWording now user filename md5 size fileid url) :
    (Command.mysqlQuery
      (.insertFileInfo md5 fileid url size (getFileSuffix filename) 1)).Worded := by
  refine ⟨?_, fits_insertFileInfo.mpr h.infoFits, h.suffixFits⟩
  simp [clear_iff, Command.templates, Statement.templates, Part.Unambiguous, h.toWording.each,
    h.infoClear, unambiguous_getFileSuffix h.toWording.each.2.2.2, unambiguous_decimal]

theorem worded_ropConnectdbNopwd : Command.ropConnectdbNopwd.Worded :=
  ⟨List.forall_mem_nil _, List.forall_mem_nil _, trivial⟩

theorem worded_msqlConn : Command.msqlConn.Worded :=
  ⟨List.forall_mem_nil _, List.forall_mem_nil _, trivial⟩

theorem worded_redisCommand (command : RedisCommand) : (Command.redisCommand command).Worded :=
  ⟨List.forall_mem_nil _, List.forall_mem_nil _, trivial⟩

theorem worded_setNames : (Command.mysqlQuery .setNames).Worded :=
  ⟨clear_rankingCommand .setNames, fits_rankingCommand .setNames, trivial⟩

theorem worded_connect {α : Type} {ret : α} {p : Handler α} (h : p.Issues Command.Worded) :
    Issues Command.Worded (do
      if !(← msqlConn) then return ret
      let _ ← mysqlQuery .setNames
      p) :=
  Issues.guard ⟨worded_msqlConn, fun _ => trivial⟩ trivial ⟨worded_setNames, fun _ => h⟩

theorem worded_userRegister {nickName pwd tel email : CString}
    (h : RegisterWording now user nickName pwd tel email) :
    (userRegister now user nickName pwd tel email).Issues Command.Worded := by
  have hfits := h.fits
  have hclear := h.clear
  simp only [List.forall_mem_cons] at hclear
  have hall : (Command.processResultOne (.userAll user) false).Worded := by
    refine ⟨?_, ?_, trivial⟩
    · simp [clear_iff, Command.templates, Query.templates, Part.Unambiguous, hclear]
    · simp [fits_iff, Command.templates, Query.templates, Part.width, bytes_eq]
      omega
  have hinsert :
      (Command.mysqlQuery (.insertUser ⟨user, nickName, pwd, tel, now, email⟩)).Worded := by
    refine ⟨?_, ?_, trivial⟩
    · simp [clear_iff, Command.templates, Statement.templates, Part.Unambiguous, hclear]
    · simp [fits_iff, Command.templates, Statement.templates, Part.width, bytes_eq]
      omega
  refine worded_connect ⟨hall, fun found => ?_⟩
  cases found with
  | notSaved => exact trivial
  | failed | noRow | row buf => exact Issues.guard ⟨hinsert, fun _ => trivial⟩ trivial trivial

section Login

variable {P : Command → Prop}

theorem issues_checkUserPwd (hconn : P .msqlConn) (hnames : P (.mysqlQuery .setNames))
    (hquery : user.length + passwordQueryLength < 512 →
      P (.processResultOne (.userPassword user) true)) (foreign : ResultOne) (pwd : CString) :
    (checkUserPwd foreign user pwd).Issues P := by
  refine Issues.guard ⟨hconn, fun _ => trivial⟩ trivial ⟨hnames, fun _ => ?_⟩
  split
  · exact trivial
  · next hlength =>
    refine ⟨hquery (not_le.mp hlength), fun reply => ?_⟩
    change Issues _ (if 256 ≤ (if sqlPlain user then reply else foreign).tmp.length then _ else _)
    generalize (if sqlPlain user then reply else foreign).tmp = tmp
    split <;> exact trivial

theorem issues_login (hconn : P .msqlConn) (hnames : P (.mysqlQuery .setNames))
    (hquery : user.length + passwordQueryLength < 512 →
      P (.processResultOne (.userPassword user) true))
    (hredis : P .ropConnectdbNopwd) (hset : ∀ command, P (.redisCommand command))
    (foreign : ResultOne) (pwd : CString) (token : Option CString) :
    (login foreign user pwd token).Issues P := by
  refine (issues_checkUserPwd hconn hnames hquery foreign pwd).bind fun ret => ?_
  cases ret with
  | none => exact trivial
  | some ret =>
    dsimp only
    split
    · refine Issues.bind (p := setToken user token) ?_ fun _ => trivial
      refine Issues.guard ⟨hredis, fun _ => trivial⟩ trivial ?_
      cases token with
      | none => exact trivial
      | some token => exact ⟨hset _, fun r => by cases r <;> exact trivial⟩
    · exact trivial

end Login

theorem worded_userPassword (h : unambiguous 0x22 user = true)
    (hlength : user.length + passwordQueryLength < 512) :
    (Command.processResultOne (.userPassword user) true).Worded := by
  rw [passwordQueryLength] at hlength
  refine ⟨?_, ?_, trivial⟩
  · simp [clear_iff, Command.templates, Query.templates, Part.Unambiguous, h]
  · simp [fits_iff, Command.templates, Query.templates, Part.width, bytes_eq]
    omega

theorem worded_login (h : unambiguous 0x22 user = true) (foreign : ResultOne) (pwd : CString)
    (token : Option CString) : (login foreign user pwd token).Issues Command.Worded :=
  issues_login worded_msqlConn worded_setNames (worded_userPassword h) worded_ropConnectdbNopwd
    worded_redisCommand foreign pwd token

theorem inOrder_login (h : unambiguous 0x22 user = true) (foreign : ResultOne) (pwd : CString)
    (token : Option CString) : (login foreign user pwd token).Issues Command.InOrder := by
  refine issues_login (by decide) (by decide) (fun hlength => ?_) (by decide) (fun command => ?_)
    foreign pwd token
  · refine (worded_userPassword h hlength).inOrder ?_
    simp [Command.InInt, Command.templates, Query.templates, Part.InInt]
  · exact (worded_redisCommand command).inOrder (List.forall_mem_nil _)

theorem worded_handler {r : Request} (h : r.WellWorded) : r.handler.Issues Command.Worded := by
  cases r with
  | upload now user filename md5 size fileid fdfsFileUrl =>
    refine Issues.guard ⟨⟨List.forall_mem_nil _, List.forall_mem_nil _, trivial⟩, fun _ => trivial⟩
      trivial ?_
    refine (issues_storeFileinfoToMysql now user md5 filename size fileid fdfsFileUrl).mono ?_
    rintro c (hc | rfl)
    · exact h.toWording.fileCommand hc
    · exact h.insertFileInfo
  | dealMd5 now user md5 filename =>
    exact (issues_dealMd5 now user md5 filename).mono fun _ => Wording.fileCommand h
  | saveFile now user md5 filename =>
    exact (issues_saveFile now user md5 filename).mono fun _ => Wording.fileCommand h
  | shareFile enc now user md5 filename =>
    refine (issues_shareFile enc now user md5 filename).mono ?_
    rintro c (hc | rfl)
    · exact Wording.fileCommand h hc
    · exact Wording.insertShareFile h
  | cancelShareFile user md5 filename =>
    exact (issues_cancelShareFile [] user md5 filename).mono fun _ => Wording.fileCommand h
  | delFile enc user md5 filename =>
    exact (issues_delFile enc [] user md5 filename).mono fun _ => Wording.fileCommand h
  | pvFile user md5 filename =>
    exact (issues_pvFile [] user md5 filename).mono fun _ => Wording.fileCommand h
  | pvShareFile enc md5 filename =>
    exact (issues_pvShareFile enc [] [] md5 filename).mono fun _ => Wording.fileCommand h
  | getRankingFilelist start count =>
    refine Issues.bind ((issues_getRankingFilelist start count).mono fun c hc => ?_) fun _ => trivial
    exact ⟨clear_rankingCommand hc, fits_rankingCommand hc, suffixFits_rankingCommand hc⟩
  | userRegister now user nickName pwd tel email => exact worded_userRegister h
  | login foreign user pwd token => exact (worded_login h foreign pwd token).bind fun _ => trivial

end Requests

/-! ## Turns -/

section Turns

variable {user : CString}

theorem worded_selectUserFiles (hclear : unambiguous 0x27 user = true) (hfits : user.length < 128)
    (order : FileOrder) (start count : Int) :
    (Command.selectUserFiles order user start count).Worded := by
  have hstart := length_decimal_int32_le start
  have hcount := length_decimal_int32_le count
  refine ⟨?_, ?_, trivial⟩
  · simp [clear_iff, Command.templates, FileOrder.template, Part.Unambiguous, hclear]
  · cases order <;>
      simp [fits_iff, Command.templates, FileOrder.template, FileOrder.clause, Part.width,
        bytes_eq] <;>
      omega

theorem inInt_selectUserFiles (order : FileOrder) {start count : Int} (hstart : isInt start)
    (hcount : isInt count) : (Command.selectUserFiles order user start count).InInt := by
  simp [Command.InInt, Command.templates, FileOrder.template, Part.InInt, hstart, hcount]

variable {P : Command → Prop} {token : CString}

theorem issues_verifyToken (hconn : P .ropConnectdbNopwd)
    (hget : P (.redisCommand (.get user))) : (verifyToken user token).Issues P := by
  refine Issues.guard ⟨hconn, fun _ => trivial⟩ trivial ?_
  refine Issues.bind (p := ropGetString _) ⟨hget, fun r => by cases r <;> exact trivial⟩ ?_
  rintro (_ | text)
  · exact trivial
  · dsimp only
    split <;> exact trivial

theorem issues_guardToken {command : Handler (Option Response)} (hconn : P .ropConnectdbNopwd)
    (hget : P (.redisCommand (.get user))) (h : command.Issues P) :
    (guardToken user token command).Issues P := by
  refine (issues_verifyToken hconn hget).bind fun ret => ?_
  cases ret with
  | none => exact trivial
  | some ret =>
    dsimp only
    split
    · exact trivial
    · exact h

theorem issues_getUserFilelist {cmd : CString} {start count : Int} (hconn : P .msqlConn)
    (hnames : P (.mysqlQuery .setNames))
    (hselect : ∀ order, P (.selectUserFiles order user start count)) :
    (getUserFilelist cmd user start count).Issues P := by
  refine Issues.guard ⟨hconn, fun _ => trivial⟩ trivial ⟨hnames, fun _ => ?_⟩
  cases FileOrder.ofCmd cmd with
  | none => exact trivial
  | some order =>
    refine ⟨hselect order, ?_⟩
    rintro (_ | _ | ⟨row, rows⟩) <;> exact trivial

theorem inOrder_listRequest (cmd : CString) {start count : Int} {arrays : Arrays}
    (hclear : unambiguous 0x27 (arrays .user) = true) (hfits : (arrays .user).length < 128)
    (hstart : isInt start) (hcount : isInt count) :
    (MyFiles.listRequest cmd start count arrays).Issues Command.InOrder :=
  issues_guardToken (by decide) (worded_redisCommand _ |>.inOrder (List.forall_mem_nil _))
    (issues_getUserFilelist (by decide) (by decide) fun order =>
      (worded_selectUserFiles hclear hfits order start count).inOrder
        (inInt_selectUserFiles order hstart hcount))

end Turns

def Errand.WellWorded (user : CString) : Errand → Prop
  | .dealfile env _ md5 filename | .dealMd5 env md5 filename => Wording env.now user md5 filename
  | .files _ _ _ => unambiguous 0x27 user = true ∧ user.length < 128

def Turn.WellWorded : Turn → Prop
  | .guarded user _ errand => errand.WellWorded user
  | .count arrays => unambiguous 0x22 (arrays .user) = true ∧ (arrays .user).length < 128
  | .free request => request.WellWorded

instance (user : CString) : (errand : Errand) → Decidable (errand.WellWorded user)
  | .dealfile env _ md5 filename | .dealMd5 env md5 filename =>
    inferInstanceAs (Decidable (Wording env.now user md5 filename))
  | .files _ _ _ => inferInstanceAs (Decidable (_ ∧ _))

instance : (turn : Turn) → Decidable turn.WellWorded
  | .guarded user _ errand => inferInstanceAs (Decidable (errand.WellWorded user))
  | .count _ => inferInstanceAs (Decidable (_ ∧ _))
  | .free request => inferInstanceAs (Decidable request.WellWorded)

theorem worded_command (env : Environment) (cmd : CString) {user md5 filename : CString}
    (h : Wording env.now user md5 filename) :
    (DealFile.command env cmd user md5 filename).Issues Command.Worded := by
  rw [DealFile.command]
  split
  · exact Issues.bind (worded_handler (r := .shareFile env.enc env.now user md5 filename) h)
      fun _ => trivial
  split
  · exact Issues.bind ((issues_delFile env.enc env.now user md5 filename).mono fun _ => h.fileCommand)
      fun _ => trivial
  split
  · exact Issues.bind ((issues_pvFile env.now user md5 filename).mono fun _ => h.fileCommand)
      fun _ => trivial
  · exact trivial

theorem worded_turn {turn : Turn} (h : turn.WellWorded) : turn.handler.Issues Command.Worded := by
  cases turn with
  | guarded user token errand =>
    refine Issues.bind
      (issues_guardToken worded_ropConnectdbNopwd (worded_redisCommand _) ?_) fun _ => trivial
    cases errand with
    | dealfile env cmd md5 filename => exact (worded_command env cmd h).bind fun _ => trivial
    | dealMd5 env md5 filename =>
      exact Issues.bind (worded_handler (r := .dealMd5 env.now user md5 filename) h) fun _ => trivial
    | files cmd start count =>
      exact issues_getUserFilelist worded_msqlConn worded_setNames fun order =>
        worded_selectUserFiles h.1 h.2 order start count
  | count arrays =>
    refine Issues.bind (Issues.bind
      (issues_verifyToken worded_ropConnectdbNopwd (worded_redisCommand _)) fun ret => ?_)
      fun _ => trivial
    cases ret with
    | none => exact trivial
    | some ret =>
      refine Issues.bind (worded_connect ⟨?_, fun found => by cases found <;> exact trivial⟩)
        fun _ => trivial
      refine ⟨?_, ?_, trivial⟩
      · simp [clear_iff, Command.templates, Query.templates, Part.Unambiguous, h.1]
      · have hlength := h.2
        simp [fits_iff, Command.templates, Query.templates, Part.width, bytes_eq]
        omega
  | free request => exact (worded_handler h).bind fun _ => trivial

/-! ## Serving texts -/

/-- Every statement of the request is in order, whichever of them fail. -/
def Request.InOrder (r : Request) (s : Store) : Prop := r.handler.IssuesFrom store Command.InOrder s

instance (r : Request) (s : Store) : Decidable (r.InOrder s) :=
  inferInstanceAs (Decidable (Procedure.IssuesFrom _ _ _ _))

/-- Of a request with well-worded strings only the counts are left to ask for. -/
theorem inOrder_of_wellWorded {r : Request} {s : Store} (h : r.WellWorded)
    (hint : r.handler.IssuesFrom store Command.InInt s) : r.InOrder s := by
  exact (((worded_handler h).from s).and hint).mono fun _ hc => hc.1.inOrder hc.2

/-- The store after the request, with the server reading the texts. -/
def Request.serveTexts (server : Server) (r : Request) (s : Option Store) : Option Store :=
  (r.handler.run (texts server) s).2

theorem serveTexts_of_inOrder (server : Server) {r : Request} {s : Store} (h : r.InOrder s) :
    r.serveTexts server (some s) = some (r.serve s) := by
  rw [Request.serveTexts, run_texts server h]
  rfl

/-- A serial run of requests that are all in order is the run of the statements. -/
theorem serveTexts_of_runs (server : Server) {ok : Request → Store → Prop}
    (hok : ∀ r s, ok r s → r.InOrder s) {requests : List Request} {s : Store}
    (h : Runs ok s requests) :
    requests.foldl (fun s r => r.serveTexts server s) (some s) = some (serveAll s requests) := by
  induction requests generalizing s with
  | nil => rfl
  | cons r rest ih =>
    obtain ⟨-, hr, hrest⟩ := h
    rw [List.foldl_cons, serveTexts_of_inOrder server (hok r s hr)]
    exact ih hrest

end HfDfs
