import HfDfs.Util
import HfDfs.Store
import HfDfs.Cgi.Http

/-!
# The accept loops

`dealfile`, `dealsharefile` and `myfiles` declare `cmd` and the arrays of a
request before their accept loop, so a turn starts with what the turns
before it left there. A turn fills the arrays without asking the servers;
what it then does is a handler.
-/

namespace HfDfs

set_option autoImplicit false

open Procedures Zlexcount

inductive Response where
  /-- the text `No data from standard input` -/
  | noData
  | nothing
  /-- `return_status` -/
  | status (code : CString)
  /-- `return_login_status` of `myfiles_cgi.c` -/
  | count (num : Int) (code : CString)
  /-- the list as it is printed -/
  | files (out : CString)
deriving DecidableEq, Repr

/-- The answer of both `pv_file` functions. -/
def pvStatus (ret : Int) : Response := .status (if ret = 0 then bytes "016" else bytes "017")

/-- The clock, and how Redis stores the public set. -/
structure Environment where
  now : CString
  enc : Encoding

structure Memory where
  cmd : CString
  arrays : Arrays

/-- What `main` does with a command and a parsed body: the arrays it leaves, and the
handler it runs. `none` stands for undefined behaviour in both. -/
abbrev Program :=
  Environment → CString → Option Json → Arrays → Option (Arrays × Handler (Option Response))

namespace Program

def turn (program : Program) (env : Environment) (r : HttpRequest) (memory : Memory) :
    Option (Memory × Handler (Option Response)) := do
  let (_, cmd) ← queryParseKeyValue 20 r.queryString (bytes "cmd") memory.cmd
  match r.read with
  | .noData => return (⟨cmd, memory.arrays⟩, return some .noData)
  | .unread => return (⟨cmd, memory.arrays⟩, return some .nothing)
  | .undefined => none
  | .text root =>
    let (arrays, handler) ← program env cmd root memory.arrays
    return (⟨cmd, arrays⟩, handler)

/-- The memory after the requests of a history. -/
def after (program : Program) : List (Environment × HttpRequest) → Memory → Option Memory
  | [], memory => some memory
  | (env, r) :: rest, memory => do
    let (memory, _) ← program.turn env r memory
    after program rest memory

end Program

/-- The response and the store a handler leaves. -/
def respond (handler : Handler (Option Response)) (s : Store) : Option (Response × Store) :=
  match handler.run store s with
  | (some response, t) => some (response, t)
  | (none, _) => none

theorem respond_some (command : Handler Response) (s : Store) :
    respond (do return some (← command)) s = some (command.run store s) := by
  simp [respond, Procedure.run_bind]

def Program.serve (program : Program) (env : Environment) (r : HttpRequest) (memory : Memory)
    (s : Store) : Option (Response × Store) := do
  let (_, handler) ← program.turn env r memory
  respond handler s

/-- The response to a command and a body, from the arrays on. -/
def Program.outcome (program : Program) (env : Environment) (cmd : CString) (root : Option Json)
    (arrays : Arrays) (s : Store) : Option (Response × Store) := do
  let (_, handler) ← program env cmd root arrays
  respond handler s

section Turns

variable {program : Program} {env : Environment} {r : HttpRequest} {memory : Memory} {s : Store}

theorem serve_undefined
    (h : queryParseKeyValue 20 r.queryString (bytes "cmd") memory.cmd = none) :
    program.serve env r memory s = none := by
  simp [Program.serve, Program.turn, h]

theorem serve_text {root : Option Json} (hread : r.read = .text root) {ret : Int} {cmd : CString}
    (h : queryParseKeyValue 20 r.queryString (bytes "cmd") memory.cmd = some (ret, cmd)) :
    program.serve env r memory s = program.outcome env cmd root memory.arrays s := by
  cases hbody : program env cmd root memory.arrays with
  | none => simp [Program.serve, Program.turn, Program.outcome, h, hread, hbody]
  | some result => simp [Program.serve, Program.turn, Program.outcome, h, hread, hbody]

theorem serve_noData (hread : r.read = .noData) {ret : Int} {cmd : CString}
    (h : queryParseKeyValue 20 r.queryString (bytes "cmd") memory.cmd = some (ret, cmd)) :
    program.serve env r memory s = some (.noData, s) := by
  simp [Program.serve, Program.turn, respond, h, hread]

theorem serve_unread (hread : r.read = .unread) {ret : Int} {cmd : CString}
    (h : queryParseKeyValue 20 r.queryString (bytes "cmd") memory.cmd = some (ret, cmd)) :
    program.serve env r memory s = some (.nothing, s) := by
  simp [Program.serve, Program.turn, respond, h, hread]

theorem serve_undefined_body (hread : r.read = .undefined) :
    program.serve env r memory s = none := by
  cases h : queryParseKeyValue 20 r.queryString (bytes "cmd") memory.cmd with
  | none => exact serve_undefined h
  | some result => simp [Program.serve, Program.turn, h, hread]

end Turns

/-- `verify_token`; a stored text that does not fit `tmp_token[128]` makes it undefined. -/
def verifyToken (user token : CString) : Handler (Option Int) := do
  if !(← ropConnectdbNopwd) then return some (-1)
  match ← ropGetString user with
  | none => return some (-1)
  | some text =>
    if 128 ≤ text.length then return none
    return some (if token = text then 0 else -1)

def Redis.token (r : Redis) (user : CString) : Option CString :=
  match r user with
  | some (.string text) => some text
  | _ => none

theorem run_verifyToken (user token : CString) (s : Store) :
    (verifyToken user token).run store s =
      match s.redis.token user with
      | none => (some (-1), s)
      | some text =>
        (if 128 ≤ text.length then none else some (if token = text then 0 else -1), s) := by
  cases h : s.redis user with
  | none => simp [verifyToken, ropGetString, Redis.exec, Redis.token, h]
  | some value =>
    cases value with
    | hash fields => simp [verifyToken, ropGetString, Redis.exec, Redis.token, h]
    | zset members => simp [verifyToken, ropGetString, Redis.exec, Redis.token, h]
    | string text =>
      rcases Nat.lt_or_ge text.length 128 with hlt | hge
      · simp [verifyToken, ropGetString, Redis.exec, Redis.token, h, hlt.not_ge]
      · simp [verifyToken, ropGetString, Redis.exec, Redis.token, h, hge]

/-- A command is run only for a verified token, and `111` is answered otherwise. -/
def guardToken (user token : CString) (command : Handler (Option Response)) :
    Handler (Option Response) := do
  match ← verifyToken user token with
  | none => return none
  | some ret =>
    if ret ≠ 0 then return some (.status (bytes "111"))
    command

theorem respond_guardToken (user token : CString) (command : Handler (Option Response))
    (s : Store) :
    respond (guardToken user token command) s =
      match s.redis.token user with
      | none => some (.status (bytes "111"), s)
      | some text =>
        if 128 ≤ text.length then none
        else if token = text then respond command s
        else some (.status (bytes "111"), s) := by
  cases htoken : s.redis.token user with
  | none => simp [respond, guardToken, Procedure.run_bind, run_verifyToken, htoken]
  | some text =>
    rcases Nat.lt_or_ge text.length 128 with hlt | hge
    · rcases eq_or_ne token text with heq | hne
      · simp [respond, guardToken, Procedure.run_bind, run_verifyToken, htoken, heq, hlt.not_ge]
      · simp [respond, guardToken, Procedure.run_bind, run_verifyToken, htoken, hne, hlt.not_ge]
    · simp [respond, guardToken, Procedure.run_bind, run_verifyToken, htoken, hge]

end HfDfs
