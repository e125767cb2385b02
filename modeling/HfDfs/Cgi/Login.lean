import HfDfs.Store
import HfDfs.Cgi.Http

/-!
# `login_cgi.c`: passwords and tokens
-/

namespace HfDfs

set_option autoImplicit false

open Procedures Procedures.Procedure

def getLoginInfo (root : Option Json) (user pwd : CString) : Option (Int × CString × CString) :=
  match root with
  | none => some (-1, user, pwd)
  | some root =>
    match root.getObjectItem (bytes "user") with
    -- an array keeps its content when its member is not reached
    | none => some (-1, user, pwd)
    | some child1 => do
      let user ← strcpy 512 child1.valuestring
      match root.getObjectItem (bytes "pwd") with
      | none => return (-1, user, pwd)
      | some child2 =>
        let pwd ← strcpy 512 child2.valuestring
        return (0, user, pwd)

/-- Inside the double quotes of the statement these bytes stand for themselves. -/
def sqlPlain (text : CString) : Bool := text.all fun c => c ≠ 0x22 && c ≠ 0x5c

/-- The text around the name in `select password from user where name="%s"`. -/
def passwordQueryLength : Nat := 39

def ResultOne.tmp : ResultOne → CString
  | .row buf => buf.str
  | _ => []

/-- A name that is not plain makes another statement of the text; `foreign` is what the server
says to it. -/
def checkUserPwd (foreign : ResultOne) (user pwd : CString) : Handler (Option Int) := do
  if !(← msqlConn) then return some (-1)
  let _ ← mysqlQuery .setNames
  -- `sql_cmd[SQL_MAX_LEN]`
  if 512 ≤ user.length + passwordQueryLength then return none
  let reply ← processResultOne (.userPassword user)
  -- `tmp` is zeroed and the result code dropped: without a row the password is empty
  let tmp := (if sqlPlain user then reply else foreign).tmp
  -- `tmp[PWD_LEN]`
  if 256 ≤ tmp.length then return none
  return some (if tmp = pwd then 0 else -1)

def setToken (user : CString) (token : Option CString) : Handler Int := do
  if !(← ropConnectdbNopwd) then return -1
  -- what `tokenText` makes of the name and four random numbers
  match token with
  | none => return -1
  | some token => ropSetexString user (24 * 60 * 60) token

def login (foreign : ResultOne) (user pwd : CString) (token : Option CString) :
    Handler (Option Int) := do
  match ← checkUserPwd foreign user pwd with
  | none => return none
  | some ret =>
    if ret = 0 then
      let ret ← setToken user token
      return some ret
    else return some ret

inductive LoginAnswer where
  | undefined
  /-- the text `No data from standard input` -/
  | noData
  /-- `continue` without a word -/
  | nothing
  | status (code token : CString)
deriving DecidableEq, Repr

def loginStatus (token : Option CString) : Option Int → LoginAnswer
  | none => .undefined
  | some ret =>
    if ret = 0 then .status (bytes "000") (token.getD []) else .status (bytes "001") (bytes "fail")

def loginMain (foreign : ResultOne) (token : Option CString) (r : HttpRequest) :
    Handler LoginAnswer :=
  match r.read with
  | .noData => return .noData
  | .unread => return .nothing
  | .undefined => return .undefined
  | .text root =>
    -- the arrays are zeroed anew, and the return value is dropped
    match getLoginInfo root [] [] with
    | none => return .undefined
    | some (_, user, pwd) => do
      let ret ← login foreign user pwd token
      return loginStatus token ret

/-! ## Runs -/

/-- The server's reply to the password query, the third command of the handler. -/
def Tables.passwordReply (t : Tables) (faults : Nat → Bool) (foreign : ResultOne)
    (user : CString) : ResultOne :=
  if sqlPlain user then
    if faults 2 then .failed else resultOne ((Query.userPassword user).result t) true
  else foreign

theorem runFaulty_login (faults : Nat → Bool) (foreign : ResultOne) (user pwd : CString)
    (token : Option CString) (s : Store) :
    (login foreign user pwd token).runFaulty store faults 0 s =
      if faults 0 then (some (-1), s)
      else if 512 ≤ user.length + passwordQueryLength ∨
          256 ≤ (s.tables.passwordReply faults foreign user).tmp.length then (none, s)
      else if (s.tables.passwordReply faults foreign user).tmp = pwd then
        if faults 3 then (some (-1), s)
        else match token with
          | none => (some (-1), s)
          | some token =>
            (some 0, { s with redis := Function.update s.redis user (some (.string token)) })
      else (some (-1), s) := by
  cases h0 : faults 0 with
  | true => simp [login, checkUserPwd, runFaulty_call, h0]
  | false =>
    rcases Nat.lt_or_ge (user.length + passwordQueryLength) 512 with hlen | hlen
    · have hreply : s.tables.passwordReply faults foreign user =
          if sqlPlain user then
            if faults 2 then .failed else resultOne ((Query.userPassword user).result s.tables) true
          else foreign := rfl
      simp only [login, checkUserPwd, msqlConn, mysqlQuery, processResultOne, call_bind, done_bind,
        runFaulty_call store faults 0, runFaulty_call store faults 1, runFaulty_processResultOne,
        store_fallible, Command.fallible, h0, Bool.and_false, Bool.false_eq_true, if_false,
        store_exec, Store.exec, Bool.not_true, if_neg hlen.not_ge, ← hreply, Statement.apply,
        ite_self]
      -- from here on only `tmp` matters, whatever the query did
      generalize (s.tables.passwordReply faults foreign user).tmp = tmp
      rcases Nat.lt_or_ge tmp.length 256 with hlt | hge
      · rcases eq_or_ne tmp pwd with rfl | hne
        · cases token <;>
            simp [setToken, ropSetexString, runFaulty_call, Redis.exec, hlt.not_ge, hlen.not_ge]
        · simp [hne, hlt.not_ge, hlen.not_ge]
      · simp [hge]
    · simp [login, checkUserPwd, runFaulty_call, h0, hlen]

/-- A login without faults leaves the store alone or adds one token to it. -/
theorem run_login (foreign : ResultOne) (user pwd : CString) (token : Option CString) (s : Store) :
    ((login foreign user pwd token).run store s).2 = s ∨
      ∃ value, ((login foreign user pwd token).run store s).2 =
        { s with redis := Function.update s.redis user (some (.string value)) } := by
  rw [← runFaulty_no_faults store 0, runFaulty_login, if_neg Bool.false_ne_true]
  split
  · exact Or.inl rfl
  split
  · rw [if_neg Bool.false_ne_true]
    cases token with
    | none => exact Or.inl rfl
    | some value => exact Or.inr ⟨value, rfl⟩
  · exact Or.inl rfl

end HfDfs
