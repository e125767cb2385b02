import HfDfs.Properties.Exchange
import HfDfs.Properties.Sessions
import HfDfs.Properties.Tokens

/-!
# From a login to a file list

Where an `unsigned long` has four bytes, a client that logs in is told its
token in JSON, and for a day it gets the list of its files with it,
whatever other clients have their programs do in between. The servers are
sent texts, and time passes between the requests.
-/

namespace HfDfs

set_option autoImplicit false

open CJson JsonText Procedures

/-! ### Logging in -/

section Login

def loginDatum (code token : CString) : Datum :=
  .object [(bytes "code", .string code), (bytes "token", .string token)]

theorem short_loginDatum {code token : CString} (hcode : code.length ≤ 128)
    (htoken : token.length ≤ 128) :
    Short (valueText true (.ofDatum (loginDatum code token)) 0) := by
  have hnames : (printStringPtr (bytes "code")).text.length = 6 ∧
      (printStringPtr (bytes "token")).text.length = 7 := by decide
  have hcodeText := length_printStringPtr_le code
  have htokenText := length_printStringPtr_le token
  have hlength : (valueText true (.ofDatum (loginDatum code token)) 0).length =
      (printStringPtr code).text.length + (printStringPtr token).text.length + 25 := by
    change (fullObject true 0 [((printStringPtr (bytes "code")).text, (printStringPtr code).text),
      ((printStringPtr (bytes "token")).text, (printStringPtr token).text)]).text.length = _
    simp [fullObject, joinMembers, length_memberText, length_formatted, tabs, hnames]
    omega
  rw [Short, hlength]
  omega

theorem write_loginStatus {code token : CString} (hcode : 0 ∉ code ∧ 0x25 ∉ code)
    (hfits : code.length ≤ 128) (htoken : 0 ∉ token ∧ 0x25 ∉ token) (hsize : token.length ≤ 128) :
    ∃ text, Text Blanks text (loginDatum code token) ∧
      (LoginAnswer.status code token).write = some text := by
  have hwritable : (loginDatum code token).Writable :=
    ⟨by decide, hcode.1, by decide, htoken.1, trivial⟩
  have hplain : ¬ (Item.ofDatum (loginDatum code token)).Occurs 0x25 := by
    rintro (hname | hvalue | hname | hvalue | hnone)
    · exact absurd hname (by decide)
    · exact hcode.2 hvalue
    · exact absurd hname (by decide)
    · exact htoken.2 hvalue
    · exact hnone
  obtain ⟨text, hprint, hprintf, htext⟩ := printf_text hwritable hplain (short_loginDatum hfits hsize)
  refine ⟨text, htext, ?_⟩
  have hitem : Item.ofDatum (loginDatum code token) =
      .object [(bytes "code", .string code), (bytes "token", .string token)] := rfl
  rw [hitem] at hprint
  rw [LoginAnswer.write, hprint]
  exact hprintf

structure LoginRequest (ms : List (CString × Datum)) (user pwd : CString) : Prop where
  named : member ms (bytes "user") = some (.string user)
  /-- the statement with the name fits `sql_cmd` -/
  short : user.length + passwordQueryLength < 512
  /-- the name stands for itself in the statement -/
  plain : sqlPlain user = true
  proved : member ms (bytes "pwd") = some (.string pwd) ∧ pwd.length < 512

/-- What the table has for the name; nothing and an empty password are the same. -/
def Tables.password (t : Tables) (user : CString) : CString :=
  ((t.user.find? (·.name = user)).map User.password).getD []

variable {r : HttpRequest} {ms : List (CString × Datum)} {user pwd token : CString}

theorem LoginRequest.decoded (h : LoginRequest ms user pwd) :
    getLoginInfo (some (objectJson ms)) [] [] = some (0, user, pwd) := by
  have huser : strcpy 512 (jsonItem (.string user)).valuestring = some user :=
    if_pos (by have := h.short; omega)
  have hpwd : strcpy 512 (jsonItem (.string pwd)).valuestring = some pwd := if_pos h.proved.2
  simp [getLoginInfo, getObjectItem_objectJson, h.named, h.proved.1, huser, hpwd]

theorem LoginRequest.clear (h : LoginRequest ms user pwd) : unambiguous 0x22 user = true := by
  have hplain := h.plain
  rw [sqlPlain, List.all_eq_true] at hplain
  refine unambiguous_of_forall fun c hc => ?_
  simpa using hplain c hc

theorem run_checkUserPwd_plain (h : LoginRequest ms user pwd) {s : Store}
    (hlength : (s.tables.password user).length < 256) (foreign : ResultOne) :
    (checkUserPwd foreign user pwd).run store s =
      (some (if s.tables.password user = pwd then 0 else -1), s) := by
  cases hrow : s.tables.user.find? (·.name = user) with
  | none =>
    have hpassword : s.tables.password user = [] := by rw [Tables.password, hrow]; rfl
    simp [checkUserPwd, h.plain, h.short.not_ge, hrow, hpassword, ResultOne.tmp, Statement.apply]
  | some row =>
    have hpassword : s.tables.password user = row.password := by rw [Tables.password, hrow]; rfl
    rw [hpassword] at hlength ⊢
    simp [checkUserPwd, h.plain, h.short.not_ge, hrow, hlength.not_ge, ResultOne.tmp,
      Statement.apply]

theorem timeless_checkUserPwd (foreign : ResultOne) (user pwd : CString) :
    (checkUserPwd foreign user pwd).Issues fun c => c.timeless = true :=
  issues_checkUserPwd (P := fun c => c.timeless = true) rfl rfl (fun _ => rfl) foreign pwd

theorem run_setToken (user token : CString) (t : Timed) :
    (setToken user (some token)).run timed t = (0, t.granted user token) := rfl

theorem run_login_timed (h : LoginRequest ms user pwd) {t : Timed}
    (hlength : (t.store.tables.password user).length < 256) (foreign : ResultOne)
    (token : CString) :
    (login foreign user pwd (some token)).run timed t =
      if t.store.tables.password user = pwd then (some 0, t.granted user token)
      else (some (-1), t) := by
  rw [login, Procedure.run_bind, run_timed_of_timeless (timeless_checkUserPwd foreign user pwd),
    run_checkUserPwd_plain h hlength]
  rcases eq_or_ne (t.store.tables.password user) pwd with hpwd | hpwd
  · simp [hpwd, Procedure.run_bind, run_setToken]
  · simp [hpwd]

variable (server : Server) {t : Timed}

theorem loginExchange_timed (hbody : r.Carries (.object ms)) (hrequest : LoginRequest ms user pwd)
    (hlength : (t.store.tables.password user).length < 256) (foreign : ResultOne)
    (token : CString) :
    loginExchange (timedTexts server) foreign (some token) r (some t) =
      if t.store.tables.password user = pwd then
        (LoginAnswer.status (bytes "000") token).write.map fun text =>
          (contentType ++ text, some (t.granted user token))
      else (LoginAnswer.status (bytes "001") (bytes "fail")).write.map fun text =>
        (contentType ++ text, some t) := by
  have hrun := run_timedTexts server
    ((inOrder_login hrequest.clear foreign pwd (some token)).from (M := timed) t)
  rw [run_login_timed hrequest hlength foreign token] at hrun
  rw [loginExchange, loginMain, hbody.read]
  simp only [hrequest.decoded, Procedure.run_bind, hrun]
  split
  · simp [loginStatus, Option.map_eq_bind]
  · simp [loginStatus, Option.map_eq_bind]

theorem exchange_granted (hbody : r.Carries (.object ms)) (hrequest : LoginRequest ms user pwd)
    (hlength : (t.store.tables.password user).length < 256)
    (htoken : (0 ∉ token ∧ 0x25 ∉ token) ∧ token.length ≤ 128)
    (hpwd : t.store.tables.password user = pwd) (foreign : ResultOne) :
    ∃ text, Text Blanks text (loginDatum (bytes "000") token) ∧
      loginExchange (timedTexts server) foreign (some token) r (some t) =
        some (contentType ++ text, some (t.granted user token)) := by
  obtain ⟨text, htext, hwrite⟩ :=
    write_loginStatus (by decide : 0 ∉ bytes "000" ∧ 0x25 ∉ bytes "000") (by decide) htoken.1
      htoken.2
  refine ⟨text, htext, ?_⟩
  rw [loginExchange_timed server hbody hrequest hlength, if_pos hpwd, hwrite]
  rfl

theorem exchange_refused (hbody : r.Carries (.object ms)) (hrequest : LoginRequest ms user pwd)
    (hlength : (t.store.tables.password user).length < 256)
    (hpwd : t.store.tables.password user ≠ pwd) (foreign : ResultOne) (token : CString) :
    ∃ text, Text Blanks text (loginDatum (bytes "001") (bytes "fail")) ∧
      loginExchange (timedTexts server) foreign (some token) r (some t) =
        some (contentType ++ text, some t) := by
  obtain ⟨text, htext, hwrite⟩ :=
    write_loginStatus (by decide : 0 ∉ bytes "001" ∧ 0x25 ∉ bytes "001")
      (by decide) (by decide : 0 ∉ bytes "fail" ∧ 0x25 ∉ bytes "fail") (by decide)
  refine ⟨text, htext, ?_⟩
  rw [loginExchange_timed server hbody hrequest hlength, if_neg hpwd, hwrite]
  rfl

theorem clean_tokenOf {malloc : Bool} {randNum : List Int} :
    (0 ∉ tokenOf malloc user randNum ∧ 0x25 ∉ tokenOf malloc user randNum) ∧
      (tokenOf malloc user randNum).length ≤ 128 := by
  refine ⟨⟨fun h => ?_, fun h => ?_⟩, ?_⟩
  · exact absurd (mem_hexDigits_of_mem_tokenOf h) (by decide)
  · exact absurd (mem_hexDigits_of_mem_tokenOf h) (by decide)
  · rw [length_tokenOf]
    decide

/-- Whatever the layout of a login, the answer is a text of the token that `set_token` computes
and the token is stored for a day, or it is a text of a refusal and nothing is. -/
theorem exchange_login (hbody : r.Carries (.object ms)) (hrequest : LoginRequest ms user pwd)
    (hzero : 0 ∉ user) (hlength : (t.store.tables.password user).length < 256) {randNum : List Int}
    (hfour : randNum.length = 4) (hrand : ∀ n ∈ randNum, 0 ≤ n ∧ n < 1000) (malloc : Bool)
    (locals : Des.Locals .four) (md5 : Md5.Ctx) (foreign : ResultOne) :
    ∃ token, (tokenText malloc locals md5 user randNum).Returns (some token) ∧
      if t.store.tables.password user = pwd then
        ∃ text, Text Blanks text (loginDatum (bytes "000") token) ∧
          loginExchange (timedTexts server) foreign (some token) r (some t) =
            some (contentType ++ text, some (t.granted user token))
      else
        ∃ text, Text Blanks text (loginDatum (bytes "001") (bytes "fail")) ∧
          loginExchange (timedTexts server) foreign (some token) r (some t) =
            some (contentType ++ text, some t) := by
  have huser : user.length < 512 := by
    have := hrequest.short
    omega
  refine ⟨_, returns_tokenText malloc locals md5 hzero huser hfour hrand, ?_⟩
  split
  · next hpwd => exact exchange_granted server hbody hrequest hlength clean_tokenOf hpwd foreign
  · next hpwd => exact exchange_refused server hbody hrequest hlength hpwd foreign _

def loginMembers : List (CString × Datum) :=
  [(bytes "user", .string [0x61]), (bytes "pwd", .string [0x70])]

theorem writable_loginMembers : (Datum.object loginMembers).Writable :=
  ⟨by decide, (by decide : (0 : UInt8) ∉ [0x61]), by decide, (by decide : (0 : UInt8) ∉ [0x70]),
    trivial⟩

theorem carries_loginRequest : (printedRequest [] loginMembers).Carries (.object loginMembers) :=
  carries_printedRequest writable_loginMembers (by decide)

theorem loginRequest_loginMembers : LoginRequest loginMembers [0x61] [0x70] where
  named := rfl
  short := by decide
  plain := by decide
  proved := ⟨rfl, by decide⟩

/-- The token of the user `a` for the numbers 1, 2, 3 and 4. -/
def firstToken : CString := bytes "00ca833a08a84aeadf8cd5785e4782a0"

theorem tokenOf_first : tokenOf true [0x61] [1, 2, 3, 4] = firstToken := by decide +kernel

theorem returns_firstToken :
    (tokenText true (zeroLocals .four) zeroCtx [0x61] [1, 2, 3, 4]).Returns (some firstToken) := by
  rw [← tokenOf_first]
  exact returns_tokenText true _ _ (by decide) (by decide) rfl (by decide)

theorem exchange_login_first :
    ∃ text, Text Blanks text (loginDatum (bytes "000") firstToken) ∧
      loginExchange (timedTexts fun c t => (c.failed, t)) .noRow (some firstToken)
          (printedRequest [] loginMembers) (some .enrolled) =
        some (contentType ++ text, some (Timed.enrolled.granted [0x61] firstToken)) := by
  have hpwd : Timed.enrolled.store.tables.password [0x61] = [0x70] := by decide
  obtain ⟨token, htoken, hlogin⟩ := exchange_login (fun c t => (c.failed, t)) (t := .enrolled)
    carries_loginRequest loginRequest_loginMembers (by decide) (by decide)
    (by decide : ([1, 2, 3, 4] : List Int).length = 4) (by decide) true (zeroLocals .four) zeroCtx
    .noRow
  cases htoken.unique returns_firstToken
  rwa [if_pos hpwd] at hlogin

end Login

/-! ### Asking for the list -/

section List

variable {ι : Type} [DecidableEq ι] {turns : ι → Turn} {events : List (Moment ι Nat)}
  {r r' : HttpRequest} {ms ms' : List (CString × Datum)} {user pwd token cmd : CString}
  {start count ret : Int} {order : FileOrder} {memory : Memory} {t : Timed}

theorem timeless_listRequest (cmd : CString) (start count : Int) (arrays : Arrays) :
    (MyFiles.listRequest cmd start count arrays).Issues fun c => c.timeless = true :=
  issues_guardToken (P := fun c => c.timeless = true) rfl rfl
    (issues_getUserFilelist (P := fun c => c.timeless = true) rfl rfl fun _ => rfl)

theorem exchange_listRequest_timed (server : Server) (hbody : r.Carries (.object ms))
    (hrequest : ListRequest ms user token start count) (hclear : unambiguous 0x27 user = true)
    (hcmd : queryParseKeyValue 20 r.queryString (bytes "cmd") memory.cmd = some (ret, cmd))
    (horder : FileOrder.ofCmd cmd = some order)
    (hfits : ∀ text, t.store.redis.token user = some text → text.length < 128)
    (env : Environment) :
    myfiles.exchange (timedTexts server) env r memory (some t) =
      ((listResponse t.store order user token start count).bind Response.write).map
        (contentType ++ ·, some t) := by
  obtain ⟨arrays, rfl, rfl, hturn⟩ := turn_listRequest hbody hrequest hcmd horder env
  have hissues := inOrder_listRequest cmd hclear hrequest.named.2 hrequest.starts.2
    hrequest.counts.2
  have hrun := run_timedTexts server (hissues.from t)
  rw [run_timed_of_timeless (timeless_listRequest cmd start count arrays),
    run_listRequest horder hfits] at hrun
  exact exchange_of_turn hturn hrun

theorem token_granted (t : Timed) (user token : CString) :
    (t.granted user token).store.redis.token user = some token := by
  simp [Timed.granted, Redis.token, Redis.exec]

theorem ended_granted (t : Timed) (user token : CString) {seconds : Nat}
    (h : seconds < 24 * 60 * 60) : (t.granted user token).ended user (t.now + seconds) = false := by
  simp [Timed.granted, Timed.ended, Timed.deadlines]
  omega

/-- A session outlives what others do in less than a day. -/
theorem token_interleaved (hset : user ≠ FILE_PUBLIC_ZSET) (hhash : user ≠ FILE_NAME_HASH)
    (hothers : ∀ i foreign pwd given, turns i ≠ .free (.login foreign user pwd given))
    (htime : elapsed events < 24 * 60 * 60) :
    (interleaved turns (t.granted user token) events).store.store.redis.token user =
      some token := by
  have hlives : (t.granted user token).ended user (t.granted user token).now = false :=
    ended_granted t user token (by decide : 0 < 24 * 60 * 60)
  have hkept : Kept turns (t.granted user token) user
      (interleaved turns (t.granted user token) events) :=
    kept_interleaved hset hhash hothers hlives events
  have hnow : (interleaved turns (t.granted user token) events).store.now = t.now + elapsed events :=
    now_runAmid (sessions turns (t.granted user token)) events
  rw [hkept.token_eq, hnow, ended_granted t user token htime, if_neg Bool.false_ne_true,
    token_granted]

def firstFile : UserFile × FileInfo :=
  (⟨[0x61], [0x6d], [0x64], [0x6e], 0, 0⟩, ⟨[0x66], [0x75], 1, [0x70], 1⟩)

/-- The user `a` with the password `p` and one file. -/
def Timed.settled : Timed where
  store := { Store.enrolled with
    tables := { Store.enrolled.tables with
      fileInfo := fun _ => some firstFile.2
      userFileList := [firstFile.1] } }
  deadline _ := none
  now := 0

def firstPage : List (CString × Datum) :=
  [(bytes "user", .string [0x61]), (bytes "token", .string firstToken), (bytes "start", .integer 0),
    (bytes "count", .integer 10)]

theorem carries_firstPage :
    (printedRequest (bytes "cmd=pvasc") firstPage).Carries (.object firstPage) := by
  refine carries_printedRequest ?_ (by decide +kernel)
  exact ⟨by decide, (by decide : (0 : UInt8) ∉ [0x61]), by decide, (by decide : 0 ∉ firstToken),
    by decide, (by decide : |(0 : ℤ)| ≤ 2 ^ 53), by decide, (by decide : |(10 : ℤ)| ≤ 2 ^ 53),
    trivial⟩

theorem listRequest_firstPage : ListRequest firstPage [0x61] firstToken 0 10 where
  named := ⟨rfl, by decide⟩
  sealed := ⟨rfl, by decide⟩
  starts := ⟨rfl, by decide, by decide⟩
  counts := ⟨rfl, by decide, by decide⟩

theorem userFiles_settled : (interleaved othersBeside (Timed.settled.granted [0x61] firstToken)
    othersEvents).store.store.tables.userFiles [0x61] = [firstFile] := by decide

end List

end HfDfs
