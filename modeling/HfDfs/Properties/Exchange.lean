import HfDfs.Cgi.Wire
import HfDfs.Properties.Bodies
import HfDfs.Properties.RequestLeaks
import HfDfs.Properties.Wording

/-!
# Exchanges

A program answers the data in a request, not its layout: however a body is
written, blanks, escapes, order and further members included, the answer is
a JSON text of what the tables hold.
-/

namespace HfDfs

set_option autoImplicit false

open CJson JsonText Binary64 Procedures

theorem exchange_of_turn {σ : Type} {M : Semantics Command Reply σ} {program : Program}
    {env : Environment} {r : HttpRequest} {memory left : Memory} {handler : Handler (Option Response)}
    {s t : σ} {response : Option Response} (hturn : program.turn env r memory = some (left, handler))
    (hrun : handler.run M s = (response, t)) :
    program.exchange M env r memory s =
      (response.bind Response.write).map fun text => (contentType ++ text, t) := by
  simp only [Program.exchange, hturn, Option.bind_eq_bind, Option.bind_some, hrun]
  cases response with
  | none => rfl
  | some response => cases hwrite : response.write <;> simp [hwrite]

/-! ### File lists -/

section FileLists

def codeDatum (code : CString) : Datum := .object [(bytes "code", .string code)]

def fileDatum (row : UserFile × FileInfo) : Datum :=
  .object [
    (bytes "user", .string row.1.user),
    (bytes "md5", .string row.1.md5),
    (bytes "time", .string row.1.createtime),
    (bytes "filename", .string row.1.filename),
    (bytes "share_status", .integer row.1.sharedStatus),
    (bytes "pv", .integer row.1.pv),
    (bytes "url", .string row.2.url),
    (bytes "size", .integer row.2.size),
    (bytes "type", .string row.2.type)]

def filesDatum (rows : List (UserFile × FileInfo)) : Datum :=
  .object [(bytes "files", .array (rows.map fileDatum))]

/-- A page of the files of a user. -/
def pageReply (t : Tables) (order : FileOrder) (user : CString) (start count : Int) : Datum :=
  match t.userFilesLimit order user start count with
  | none => codeDatum (bytes "015")
  | some [] => codeDatum (bytes "015")
  | some rows => filesDatum rows

/-- What a user who asks for a page of their files is to be told. -/
def listReply (s : Store) (order : FileOrder) (user token : CString) (start count : Int) : Datum :=
  if s.redis.token user ≠ some token then codeDatum (bytes "111")
  else pageReply s.tables order user start count

/-- A printed datum without `%`. -/
theorem printf_text {v : Datum} (h : v.Writable) (hpercent : ¬ (Item.ofDatum v).Occurs 0x25)
    (hshort : Short (valueText true (.ofDatum v) 0)) :
    ∃ text, print (.ofDatum v) = some text ∧ printf text = some text ∧ Text Blanks text v := by
  refine ⟨_, printValue_of_short hshort, if_neg fun hmem => ?_, text_valueText h true 0⟩
  exact (own_valueText hmem).elim (by decide) hpercent

theorem write_status {code : CString} (hzero : 0 ∉ code) (hpercent : 0x25 ∉ code)
    (hshort : Short (valueText true (.ofDatum (codeDatum code)) 0)) :
    ∃ text, returnStatus code = some text ∧ printf text = some text ∧
      Text Blanks text (codeDatum code) := by
  have hwritable : (codeDatum code).Writable := ⟨by decide, hzero, trivial⟩
  have hplain : ¬ (Item.ofDatum (codeDatum code)).Occurs 0x25 := by
    rintro (hname | hcode | hnone)
    · exact absurd hname (by decide)
    · exact hpercent hcode
    · exact hnone
  exact printf_text hwritable hplain hshort

theorem ofDatum_filesDatum (rows : List (UserFile × FileInfo)) :
    Item.ofDatum (filesDatum rows) = .object [(bytes "files", .array (rows.map fileItem))] := by
  simp [filesDatum, Item.ofDatum, ofMembers, ofData_eq_map, fileDatum, fileItem, Function.comp_def]

/-- A list is written whole, or its log line is too long. -/
theorem fileList_text {rows : List (UserFile × FileInfo)} (h : (filesDatum rows).Writable) :
    ∃ text, Text Blanks text (filesDatum rows) ∧
      fileList rows = if text.length + 1 < 4096 then some text else none := by
  refine ⟨_, text_valueText h true 0, ?_⟩
  rw [ofDatum_filesDatum, fileList, print]
  split
  · next hline =>
    have hshort : Short (valueText true (.object [(bytes "files", .array (rows.map fileItem))]) 0) := by
      rw [Short]
      omega
    rw [printValue_of_short hshort, Option.bind_eq_bind, Option.bind_some, logLine, if_pos hline]
    rfl
  · next hline =>
    -- what is printed, if anything, is too long for the log
    cases hprint : printValue true (.object [(bytes "files", .array (rows.map fileItem))]) 0 with
    | none => rfl
    | some text =>
      rw [Option.bind_eq_bind, Option.bind_some, logLine, eq_valueText hprint, if_neg hline]
      rfl

theorem writable_filesDatum {rows : List (UserFile × FileInfo)}
    (h : ∀ row ∈ rows, (fileDatum row).Writable) : (filesDatum rows).Writable := by
  refine ⟨by decide, ?_, trivial⟩
  induction rows with
  | nil => trivial
  | cons row rows ih =>
    rw [List.forall_mem_cons] at h
    exact ⟨h.1, ih h.2⟩

theorem mem_userFiles_of_limit {t : Tables} {order : FileOrder} {user : CString} {start count : Int}
    {rows : List (UserFile × FileInfo)} (h : t.userFilesLimit order user start count = some rows)
    {row : UserFile × FileInfo} (hrow : row ∈ rows) : row ∈ t.userFiles user := by
  rw [Tables.userFilesLimit] at h
  split at h
  · cases h
  · cases h
    have hsorted := List.mem_of_mem_drop (List.mem_of_mem_take hrow)
    cases order with
    | normal => exact hsorted
    | pvasc => exact (List.mem_insertionSort _).mp hsorted
    | pvdesc => exact (List.mem_insertionSort _).mp hsorted

/-- The response of which `pageReply` is the datum. -/
def pageResponse (t : Tables) (order : FileOrder) (user : CString) (start count : Int) :
    Option Response :=
  match t.userFilesLimit order user start count with
  | none => some (.status (bytes "015"))
  | some [] => some (.status (bytes "015"))
  | some rows => (fileList rows).map .files

theorem run_getUserFilelist {cmd user : CString} {start count : Int} {order : FileOrder}
    (horder : FileOrder.ofCmd cmd = some order) (s : Store) :
    (getUserFilelist cmd user start count).run store s =
      (pageResponse s.tables order user start count, s) := by
  rw [pageResponse]
  cases hrows : s.tables.userFilesLimit order user start count with
  | none => simp [getUserFilelist, horder, hrows]
  | some rows =>
    cases rows with
    | nil => simp [getUserFilelist, horder, hrows]
    | cons row rows => simp [getUserFilelist, horder, hrows]

/-- The response of which `listReply` is the datum. -/
def listResponse (s : Store) (order : FileOrder) (user token : CString) (start count : Int) :
    Option Response :=
  if s.redis.token user ≠ some token then some (.status (bytes "111"))
  else pageResponse s.tables order user start count

theorem run_listRequest {cmd : CString} {start count : Int} {order : FileOrder} {arrays : Arrays}
    {s : Store} (horder : FileOrder.ofCmd cmd = some order)
    (hfits : ∀ text, s.redis.token (arrays .user) = some text → text.length < 128) :
    (MyFiles.listRequest cmd start count arrays).run store s =
      (listResponse s order (arrays .user) (arrays .token) start count, s) := by
  rw [MyFiles.listRequest, guardToken, Procedure.run_bind, run_verifyToken, listResponse]
  cases htoken : s.redis.token (arrays .user) with
  | none => simp
  | some text =>
    have hlt := hfits text htoken
    rcases eq_or_ne (arrays .token) text with heq | hne
    · simp [heq, hlt.not_ge, run_getUserFilelist horder]
    · simp [hne, Ne.symm hne, hlt.not_ge]

theorem ne_count_of_ofCmd {cmd : CString} {order : FileOrder}
    (h : FileOrder.ofCmd cmd = some order) : cmd ≠ bytes "count" := by
  rintro rfl
  have hnone : FileOrder.ofCmd (bytes "count") = none := by decide
  rw [hnone] at h
  cases h

/-- A request for a page of one's files. -/
structure ListRequest (ms : List (CString × Datum)) (user token : CString) (start count : Int) :
    Prop where
  named : member ms (bytes "user") = some (.string user) ∧ user.length < 128
  sealed : member ms (bytes "token") = some (.string token) ∧ token.length < 128
  starts : member ms (bytes "start") = some (.integer start) ∧ -2 ^ 31 ≤ start ∧ start < 2 ^ 31
  counts : member ms (bytes "count") = some (.integer count) ∧ -2 ^ 31 ≤ count ∧ count < 2 ^ 31

theorem ListRequest.decoded {ms : List (CString × Datum)} {user token : CString} {start count : Int}
    (h : ListRequest ms user token start count) (arrays : Arrays) :
    ∃ arrays', arrays' .user = user ∧ arrays' .token = token ∧
      getFileslistJsonInfo (some (objectJson ms)) arrays =
        some (0, arrays', some start, some count) := by
  let texts : Arrays := fun field => if field = .user then user else token
  have hfields : ∀ field ∈ MyFiles.fields, member ms field.name = some (.string (texts field)) ∧
      (texts field).length < field.size :=
    List.forall_mem_cons.mpr ⟨h.named, List.forall_mem_singleton.mpr h.sealed⟩
  have hstart := valueint_ofDatum h.starts.2.1 h.starts.2.2
  have hcount := valueint_ofDatum h.counts.2.1 h.counts.2.2
  refine ⟨arrays.write MyFiles.fields texts, rfl, rfl, ?_⟩
  rw [getFileslistJsonInfo, decode_objectJson hfields]
  simp [getObjectItem_objectJson, h.starts.1, h.counts.1, hstart, hcount]

/-- A token that was sent has room where it is compared. -/
theorem ListRequest.fits {ms : List (CString × Datum)} {user token : CString} {start count : Int}
    (h : ListRequest ms user token start count) {s : Store}
    (htoken : s.redis.token user = some token) (text : CString)
    (htext : s.redis.token user = some text) : text.length < 128 := by
  rw [htoken, Option.some.injEq] at htext
  exact htext ▸ h.sealed.2

theorem write_pageResponse {t : Tables} {user : CString}
    (hrows : ∀ row ∈ t.userFiles user, (fileDatum row).Writable) (order : FileOrder)
    (start count : Int) :
    ∃ text, Text Blanks text (pageReply t order user start count) ∧
      (pageResponse t order user start count).bind Response.write =
        if text.length + 1 < 4096 then some text else none := by
  obtain ⟨text, hstatus, hprintf, htext⟩ :=
    write_status (by decide : 0 ∉ bytes "015") (by decide : 0x25 ∉ bytes "015")
      (by decide)
  have hshort : (returnStatus (bytes "015")).all (fun text => text.length + 1 < 4096) = true := by
    decide
  rw [hstatus, Option.all_some, decide_eq_true_eq] at hshort
  have hcode : (some (Response.status (bytes "015"))).bind Response.write =
      if text.length + 1 < 4096 then some text else none := by
    rw [if_pos hshort, Option.bind_some, Response.write, hstatus]
    exact hprintf
  rw [pageReply, pageResponse]
  cases hlimit : t.userFilesLimit order user start count with
  | none => exact ⟨text, htext, hcode⟩
  | some rows =>
    cases rows with
    | nil => exact ⟨text, htext, hcode⟩
    | cons row rows =>
      obtain ⟨text, htext, hlist⟩ := fileList_text (writable_filesDatum fun row hrow =>
        hrows row (mem_userFiles_of_limit hlimit hrow))
      refine ⟨text, htext, ?_⟩
      simp only [hlist]
      split <;> rfl

theorem write_refused : ∃ text, Text Blanks text (codeDatum (bytes "111")) ∧
    (Response.status (bytes "111")).write = some text ∧ text.length + 1 < 4096 := by
  obtain ⟨text, hstatus, hprintf, htext⟩ :=
    write_status (by decide : 0 ∉ bytes "111") (by decide : 0x25 ∉ bytes "111")
      (by decide)
  have hshort : (returnStatus (bytes "111")).all (fun text => text.length + 1 < 4096) = true := by
    decide
  rw [hstatus, Option.all_some, decide_eq_true_eq] at hshort
  refine ⟨text, htext, ?_, hshort⟩
  rw [Response.write, hstatus]
  exact hprintf

theorem write_listResponse {s : Store} {user : CString}
    (hrows : ∀ row ∈ s.tables.userFiles user, (fileDatum row).Writable) (order : FileOrder)
    (token : CString) (start count : Int) :
    ∃ text, Text Blanks text (listReply s order user token start count) ∧
      (listResponse s order user token start count).bind Response.write =
        if text.length + 1 < 4096 then some text else none := by
  rw [listReply, listResponse]
  split
  · obtain ⟨text, htext, hwrite, hshort⟩ := write_refused
    exact ⟨text, htext, by rw [Option.bind_some, hwrite, if_pos hshort]⟩
  · exact write_pageResponse hrows order start count

section Exchange

variable {r : HttpRequest} {ms : List (CString × Datum)} {user token cmd : CString}
  {start count ret : Int} {order : FileOrder} {memory : Memory} {s : Store}

theorem turn_listRequest (hbody : r.Carries (.object ms))
    (hrequest : ListRequest ms user token start count)
    (hcmd : queryParseKeyValue 20 r.queryString (bytes "cmd") memory.cmd = some (ret, cmd))
    (horder : FileOrder.ofCmd cmd = some order) (env : Environment) :
    ∃ arrays, arrays .user = user ∧ arrays .token = token ∧ myfiles.turn env r memory =
      some (⟨cmd, arrays⟩, MyFiles.listRequest cmd start count arrays) := by
  obtain ⟨arrays, rfl, rfl, hdecoded⟩ := hrequest.decoded memory.arrays
  refine ⟨arrays, rfl, rfl, ?_⟩
  rw [turn_text hbody.read hcmd]
  simp only [myfiles, if_neg (ne_count_of_ofCmd horder), hdecoded]
  rfl

theorem exchange_listRequest (hbody : r.Carries (.object ms))
    (hrequest : ListRequest ms user token start count)
    (hcmd : queryParseKeyValue 20 r.queryString (bytes "cmd") memory.cmd = some (ret, cmd))
    (horder : FileOrder.ofCmd cmd = some order)
    (hfits : ∀ text, s.redis.token user = some text → text.length < 128) (env : Environment) :
    myfiles.exchange store env r memory s =
      ((listResponse s order user token start count).bind Response.write).map
        (contentType ++ ·, s) := by
  obtain ⟨arrays, rfl, rfl, hturn⟩ := turn_listRequest hbody hrequest hcmd horder env
  exact exchange_of_turn hturn (run_listRequest horder hfits)

/-- The same with a server that reads texts, for a name that leaves the quotes around it alone. -/
theorem exchange_listRequest_texts (server : Server) (hbody : r.Carries (.object ms))
    (hrequest : ListRequest ms user token start count) (hclear : unambiguous 0x27 user = true)
    (hcmd : queryParseKeyValue 20 r.queryString (bytes "cmd") memory.cmd = some (ret, cmd))
    (horder : FileOrder.ofCmd cmd = some order)
    (hfits : ∀ text, s.redis.token user = some text → text.length < 128) (env : Environment) :
    myfiles.exchange (texts server) env r memory (some s) =
      ((listResponse s order user token start count).bind Response.write).map
        (contentType ++ ·, some s) := by
  obtain ⟨arrays, rfl, rfl, hturn⟩ := turn_listRequest hbody hrequest hcmd horder env
  have hissues := inOrder_listRequest cmd hclear hrequest.named.2 hrequest.starts.2
    hrequest.counts.2
  have hrun := run_texts server (hissues.from s)
  rw [run_listRequest horder hfits] at hrun
  exact exchange_of_turn hturn hrun

/-- Forty-three files of the user `a`, who has the token `t`. -/
def Store.crowded : Store :=
  { Store.login [0x61] [0x74] with
    tables := { Tables.empty with
      fileInfo := fun _ => some ⟨[0x66], [0x75], 1, [0x70], 1⟩
      userFileList := List.replicate 43 ⟨[0x61], [0x6d], [0x64], [0x6e], 0, 0⟩ } }

def pageMembers (count : Int) : List (CString × Datum) :=
  [(bytes "count", .integer count), (bytes "user", .string [0x61]), (bytes "token", .string [0x74]),
    (bytes "start", .integer 0)]

def pageRequest (count : Int) : HttpRequest := printedRequest (bytes "cmd=normal") (pageMembers count)

theorem carries_pageRequest {count : Int} (hcount : |count| ≤ 2 ^ 53)
    (hlength : (pageRequest count).stdin.length + 8 ≤ 4096) :
    (pageRequest count).Carries (.object (pageMembers count)) := by
  refine carries_printedRequest ?_ hlength
  exact ⟨by decide, hcount, by decide, (by decide : (0 : UInt8) ∉ [0x61]), by decide,
    (by decide : (0 : UInt8) ∉ [0x74]), by decide, (by decide : |(0 : ℤ)| ≤ 2 ^ 53), trivial⟩

theorem listRequest_pageMembers {count : Int} (hmin : -2 ^ 31 ≤ count) (hmax : count < 2 ^ 31) :
    ListRequest (pageMembers count) [0x61] [0x74] 0 count where
  named := ⟨rfl, by decide⟩
  sealed := ⟨rfl, by decide⟩
  starts := ⟨rfl, by decide, by decide⟩
  counts := ⟨rfl, hmin, hmax⟩

theorem writable_crowded :
    ∀ row ∈ Store.crowded.tables.userFiles [0x61], (fileDatum row).Writable := by
  intro row hrow
  rw [Tables.userFiles, List.mem_filterMap] at hrow
  obtain ⟨file, hfile, hrow⟩ := hrow
  rw [List.eq_of_mem_replicate (List.mem_of_mem_filter hfile)] at hrow
  cases hrow
  simp only [fileDatum, Datum.Writable, WritableMembers]
  decide

theorem cmd_pageRequest (count : Int) :
    queryParseKeyValue 20 (pageRequest count).queryString (bytes "cmd") [] =
      some (0, bytes "normal") := by
  change queryParseKeyValue 20 (bytes "cmd=normal") (bytes "cmd") [] = some (0, bytes "normal")
  decide

theorem tokensFit_crowded (text : CString) (h : Store.crowded.redis.token [0x61] = some text) :
    text.length < 128 := by
  rw [show Store.crowded.redis.token [0x61] = some [0x74] from token_login _ _] at h
  cases h
  decide

theorem weight_fileDatum (row : UserFile × FileInfo) : 96 ≤ (fileDatum row).weight := by
  have hnames : [bytes "user", bytes "md5", bytes "time", bytes "filename", bytes "share_status",
      bytes "pv", bytes "url", bytes "size", bytes "type"].map List.length =
      [4, 3, 4, 8, 12, 2, 3, 4, 4] := by decide
  simp only [List.map_cons, List.map_nil, List.cons.injEq] at hnames
  obtain ⟨h1, h2, h3, h4, h5, h6, h7, h8, h9, -⟩ := hnames
  simp only [fileDatum, Datum.weight, weightMembers, h1, h2, h3, h4, h5, h6, h7, h8, h9]
  omega

theorem weight_filesDatum (rows : List (UserFile × FileInfo)) :
    97 * rows.length + 11 ≤ (filesDatum rows).weight := by
  have hitems : 97 * rows.length ≤ weightItems (rows.map fileDatum) := by
    induction rows with
    | nil => exact Nat.zero_le _
    | cons row rows ih =>
      have hrow := weight_fileDatum row
      cases rows with
      | nil => exact Nat.succ_le_succ hrow
      | cons other rows =>
        simp only [List.map_cons, List.length_cons] at ih ⊢
        rw [weightItems]
        · omega
        · exact List.cons_ne_nil _ _
  have hname : (bytes "files").length = 5 := by decide
  simp only [filesDatum, Datum.weight, weightMembers, hname]
  omega

theorem length_sort (order : FileOrder) (files : List (UserFile × FileInfo)) :
    (order.sort files).length = files.length := by
  cases order with
  | normal => rfl
  | pvasc => exact List.length_insertionSort _ _
  | pvdesc => exact List.length_insertionSort _ _

/-- A page of as many rows as asked for, when the user has them. -/
theorem userFilesLimit_of_le {t : Tables} {n : ℕ} (order : FileOrder) (hstart : 0 ≤ start) (hcount : n ≤ count)
    (hfiles : start + n ≤ (t.userFiles user).length) :
    ∃ rows, t.userFilesLimit order user start count = some rows ∧ n ≤ rows.length := by
  refine ⟨_, if_neg (by omega), ?_⟩
  rw [List.length_take, List.length_drop, length_sort]
  omega

/-- Forty-three rows are more than the log holds, whatever stands in them; so it is with a server
that reads texts, for a name that leaves the quotes around it alone. -/
theorem exchange_list_long (hbody : r.Carries (.object ms))
    (hrequest : ListRequest ms user token start count)
    (hcmd : queryParseKeyValue 20 r.queryString (bytes "cmd") memory.cmd = some (ret, cmd))
    (horder : FileOrder.ofCmd cmd = some order)
    (hrows : ∀ row ∈ s.tables.userFiles user, (fileDatum row).Writable)
    (htoken : s.redis.token user = some token) (hstart : 0 ≤ start) (hcount : 43 ≤ count)
    (hfiles : start + 43 ≤ (s.tables.userFiles user).length) (env : Environment) :
    myfiles.exchange store env r memory s = none ∧
      ∀ server, unambiguous 0x27 user = true →
        myfiles.exchange (texts server) env r memory (some s) = none := by
  obtain ⟨rows, hlimit, hlength⟩ : ∃ rows,
      s.tables.userFilesLimit order user start count = some rows ∧ 43 ≤ rows.length :=
    userFilesLimit_of_le order hstart hcount hfiles
  obtain ⟨text, htext, hwrite⟩ := write_listResponse hrows order token start count
  have hreply : listReply s order user token start count = filesDatum rows := by
    rw [listReply, if_neg (not_not.mpr htoken), pageReply, hlimit]
    cases rows with
    | nil => simp at hlength
    | cons row rows => rfl
  have hlong : 97 * rows.length + 11 ≤ text.length := by
    rw [hreply] at htext
    exact (weight_filesDatum rows).trans htext.weight_le
  have hoverrun : (listResponse s order user token start count).bind Response.write = none := by
    rw [hwrite, if_neg (by omega)]
  constructor
  · rw [exchange_listRequest hbody hrequest hcmd horder (hrequest.fits htoken), hoverrun]
    rfl
  · intro server hclear
    rw [exchange_listRequest_texts server hbody hrequest hclear hcmd horder (hrequest.fits htoken),
      hoverrun]
    rfl

theorem exchange_list_crowded :
    myfiles.exchange store ⟨[], .ziplist⟩ (pageRequest 43) ⟨[], fun _ => []⟩ Store.crowded = none ∧
      myfiles.exchange (texts fun c t => (c.failed, t)) ⟨[], .ziplist⟩ (pageRequest 43)
        ⟨[], fun _ => []⟩ (some Store.crowded) = none := by
  have hbody : (pageRequest 43).Carries (.object (pageMembers 43)) :=
    carries_pageRequest (by decide) (by decide +kernel)
  obtain ⟨hstore, htexts⟩ := exchange_list_long hbody
    (listRequest_pageMembers (by decide) (by decide)) (cmd_pageRequest 43) rfl writable_crowded
    (token_login _ _) (by decide) (by decide) (by decide) ⟨[], .ziplist⟩
  exact ⟨hstore, htexts _ (by decide)⟩

end Exchange

end FileLists

end HfDfs
