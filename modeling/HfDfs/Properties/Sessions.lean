import HfDfs.Lifetimes
import HfDfs.Properties.Wording

/-!
# Sessions

A token is the value of a Redis key, the user's name. `login` writes it for
a day, and every other program that is asked for something by a user
compares it first. The programs run side by side, so what a turn may do is
said for all interleavings of any number of turns, with time passing in
between: a stranger has no session, and until its time is over a session is
not lost to what others do. The servers are sent texts, and all of this
holds as long as the texts are in order.
-/

namespace HfDfs

set_option autoImplicit false

open Procedures Procedures.Procedure

/-! ## The protocol of a turn -/

/-- Whether the token, or the password, is right. -/
def Turn.learns : Turn → (c : Command) → Reply c → Option Bool
  | .guarded _ token _, .redisCommand (.get _), r =>
    match r with
    | .bulk text => some (token = text)
    | _ => some false
  | .free (.login foreign user pwd _), .processResultOne (.userPassword _) _, r =>
    some ((if sqlPlain user then r else foreign).tmp = pwd)
  | _, _, _ => none

/-- The commands of a turn that has learned `g`. -/
inductive Turn.Allows : Turn → Option Bool → Command → Prop
  | work {turn : Turn} {g : Option Bool} {c : Command} : c.isWork = true → Allows turn g c
  | token {user token : CString} {errand : Errand} {g : Option Bool} :
      Allows (.guarded user token errand) g (.redisCommand (.get user))
  | count {arrays : Arrays} {g : Option Bool} :
      Allows (.count arrays) g (.redisCommand (.get (arrays .user)))
  | password {foreign : ResultOne} {user pwd : CString} {token : Option CString} {g : Option Bool} :
      Allows (.free (.login foreign user pwd token)) g (.processResultOne (.userPassword user) true)
  | setex {foreign : ResultOne} {user pwd value : CString} {seconds : Nat} :
      Allows (.free (.login foreign user pwd (some value))) (some true)
        (.redisCommand (.setex user seconds value))

/-- A guarded turn says 111 exactly when the token was wrong. -/
def Turn.Ends : Turn → Option Bool → Answer → Prop
  | .guarded _ _ _, g, .response (some response) =>
    g = some (response ≠ .status (bytes "111") : Bool)
  | _, _, _ => True

def Turn.protocol (turn : Turn) : Protocol Command Reply Answer (Option Bool) where
  start := none
  next g c r := (turn.learns c r).or g
  allowed := turn.Allows
  final := turn.Ends

theorem learns_of_isWork {turn : Turn} {c : Command} (h : c.isWork = true) (r : Reply c) :
    turn.learns c r = none := by
  rw [Turn.learns.eq_def]
  split
  · cases h
  · cases h
  · rfl

theorem quiet_of_isWork {turn : Turn} {β : Type} {final : Option Bool → β → Prop} {c : Command}
    (h : c.isWork = true) : (turn.protocol.ending final).Quiet c where
  allowed _ := .work h
  next g r := by
    change (turn.learns c r).or g = g
    rw [learns_of_isWork h, Option.none_or]

theorem Works.quiet {α β : Type} {p : Handler α} (h : Works p) {turn : Turn}
    {final : Option Bool → β → Prop} : p.Issues (turn.protocol.ending final).Quiet :=
  h.mono fun _ => quiet_of_isWork

theorem Works.allowed {α : Type} {p : Handler α} (h : Works p) {turn : Turn} :
    p.Issues fun c => ∀ g, turn.Allows g c := h.mono fun _ hc _ => .work hc

section Conformity

variable {user token : CString} {errand : Errand}

theorem shareStatus_ne (ret : Int) : shareStatus ret ≠ .status (bytes "111") := by
  rw [shareStatus]
  repeat' split
  all_goals decide

theorem delStatus_ne (ret : Int) : delStatus ret ≠ .status (bytes "111") := by
  rw [delStatus]
  split <;> decide

theorem pvStatus_ne (ret : Int) : pvStatus ret ≠ .status (bytes "111") := by
  rw [pvStatus]
  split <;> decide

theorem md5Status_ne (ret : Int) : md5Status ret ≠ .status (bytes "111") := by
  rw [md5Status]
  repeat' split
  all_goals decide

/-- The token was right, and the answer does not say otherwise. -/
def Served (g : Option Bool) (response : Response) : Prop :=
  g = some true ∧ response ≠ .status (bytes "111")

/-- Work, then an answer. -/
theorem conforms_answer {turn : Turn} {p : Handler Int} {status : Int → Response} (h : Works p)
    (hstatus : ∀ ret, status ret ≠ .status (bytes "111")) :
    Conforms store (turn.protocol.ending Served) (do return status (← p)) (some true) :=
  .bind_of_quiet h.quiet fun ret => ⟨rfl, hstatus ret⟩

theorem conforms_command (turn : Turn) (env : Environment) (cmd user md5 filename : CString) :
    Conforms store (turn.protocol.ending Served) (DealFile.command env cmd user md5 filename)
      (some true) := by
  rw [DealFile.command]
  split
  · exact conforms_answer (works_shareFile _ _ _ _ _) shareStatus_ne
  split
  · exact conforms_answer (works_delFile _ _ _ _) delStatus_ne
  split
  · exact conforms_answer (works_pvFile _ _ _) pvStatus_ne
  · exact ⟨rfl, by decide⟩

theorem conforms_getUserFilelist (turn : Turn) (cmd user : CString) (start count : Int) :
    Conforms store (turn.protocol.ending fun g response => ∀ r, response = some r → Served g r)
      (getUserFilelist cmd user start count) (some true) := by
  have hcode : ∀ r, some (Response.status (bytes "015")) = some r → Served (some true) r := by
    rintro _ ⟨⟩
    exact ⟨rfl, by decide⟩
  refine .guard ⟨quiet_of_isWork rfl, fun _ => trivial⟩ hcode ?_
  refine .call_of_quiet (quiet_of_isWork rfl) fun _ => ?_
  cases FileOrder.ofCmd cmd with
  | none => exact hcode
  | some order =>
    refine .call_of_quiet (quiet_of_isWork rfl) ?_
    rintro (_ | _ | ⟨row, rows⟩)
    · exact hcode
    · exact hcode
    · intro r hr
      obtain ⟨out, -, rfl⟩ := Option.map_eq_some_iff.mp hr
      exact ⟨rfl, Response.noConfusion⟩

/-- None of the errands is answered with 111. -/
theorem conforms_errand (turn : Turn) (errand : Errand) (user : CString) :
    Conforms store (turn.protocol.ending fun g response => ∀ r, response = some r → Served g r)
      (errand.handler user) (some true) := by
  cases errand with
  | dealfile env cmd md5 filename =>
    refine .bind (conforms_command turn env cmd user md5 filename) fun response g h => ?_
    rintro _ ⟨⟩
    exact h
  | dealMd5 env md5 filename =>
    refine .bind_of_quiet (works_dealMd5 _ _ _ _).quiet fun ret => ?_
    rintro _ ⟨⟩
    exact ⟨rfl, md5Status_ne ret⟩
  | files cmd start count => exact conforms_getUserFilelist turn cmd user start count

theorem conforms_verifyToken : Conforms store ((Turn.guarded user token errand).protocol.ending
    fun g ret => ∀ code, ret = some code → g = some (code = 0 : Bool)) (verifyToken user token)
    none := by
  have hwrong : ∀ code : Int, some (-1) = some code → some false = some (code = 0 : Bool) := by
    rintro _ ⟨⟩
    rfl
  refine ⟨.work rfl, fun _ => ⟨.token, fun s => ?_⟩⟩
  generalize (store.exec (.redisCommand (.get user)) s).1 = reply
  cases reply with
  | bulk text =>
    change Conforms store _ (if 128 ≤ text.length then .done none
      else .done (some (if token = text then 0 else -1))) (some (token = text : Bool))
    split
    · exact fun _ h => nomatch h
    rcases eq_or_ne token text with rfl | hne
    · simp [Conforms, Protocol.ending]
    · simp [Conforms, Protocol.ending, hne]
  | _ => exact hwrong

theorem conforms_guarded : Conforms store (Turn.guarded user token errand).protocol
    (Turn.guarded user token errand).handler none := by
  refine .bind (Q := fun g response => (Turn.guarded user token errand).Ends g (.response response))
    ?_ fun _ _ h => h
  refine .bind conforms_verifyToken fun ret g hg => ?_
  cases ret with
  | none => exact trivial
  | some ret =>
    rw [hg ret rfl]
    by_cases hret : ret = 0
    · simp only [hret, ne_eq, not_true_eq_false, if_false, decide_true]
      refine (conforms_errand _ errand user).of_ending fun g response h => ?_
      cases response with
      | none => exact trivial
      | some response =>
        obtain ⟨rfl, hresponse⟩ := h response rfl
        exact congrArg some (decide_eq_true hresponse).symm
    · simp only [hret, ne_eq, not_false_eq_true, if_true, decide_false]
      exact rfl

theorem conforms_count (arrays : Arrays) :
    Conforms store (Turn.count arrays).protocol (Turn.count arrays).handler none := by
  have hissues : (Turn.count arrays).handler.Issues fun c => ∀ g, (Turn.count arrays).Allows g c := by
    refine Issues.bind (Issues.bind (p := verifyToken _ _) ?_ fun ret => ?_) fun _ => trivial
    · refine Issues.guard ⟨fun _ => .work rfl, fun _ => trivial⟩ trivial ?_
      refine Issues.bind (p := ropGetString _)
        ⟨fun _ => .count, fun r => by cases r <;> exact trivial⟩ ?_
      rintro (_ | text)
      · exact trivial
      · dsimp only
        split <;> exact trivial
    · cases ret with
      | none => exact trivial
      | some ret => exact (works_getUserFilesCount _ ret).allowed.bind fun _ => trivial
  exact .of_issues (fun _ _ => trivial) hissues

/-- The check succeeds only when the password was found to be right. -/
theorem conforms_checkUserPwd (foreign : ResultOne) (user pwd : CString) (token : Option CString) :
    Conforms store ((Turn.free (.login foreign user pwd token)).protocol.ending
      fun g ret => ret = some 0 → g = some true) (checkUserPwd foreign user pwd) none := by
  refine ⟨.work rfl, fun _ => ⟨.work rfl, fun _ => ?_⟩⟩
  change Conforms store _ (if 512 ≤ user.length + passwordQueryLength then _ else _) none
  split
  · exact fun h => nomatch h
  refine ⟨.password, fun s => ?_⟩
  generalize (store.exec (.processResultOne (.userPassword user) true) s).1 = reply
  change Conforms store _ (if 256 ≤ (if sqlPlain user then reply else foreign).tmp.length then .done none
    else .done (some (if (if sqlPlain user then reply else foreign).tmp = pwd then 0 else -1)))
    (some ((if sqlPlain user then reply else foreign).tmp = pwd : Bool))
  generalize (if sqlPlain user then reply else foreign).tmp = tmp
  split
  · exact fun h => nomatch h
  rcases eq_or_ne tmp pwd with rfl | hne
  · simp [Conforms, Protocol.ending]
  · simp [Conforms, Protocol.ending, hne]

theorem conforms_login (foreign : ResultOne) (user pwd : CString) (token : Option CString) :
    Conforms store (Turn.free (.login foreign user pwd token)).protocol
      (Turn.free (.login foreign user pwd token)).handler none := by
  refine .bind (Q := fun _ _ => True) ?_ fun _ _ _ => trivial
  refine .bind (Q := fun _ _ => True) ?_ fun _ _ _ => trivial
  refine .bind (conforms_checkUserPwd foreign user pwd token) fun ret g hg => ?_
  cases ret with
  | none => exact trivial
  | some ret =>
    dsimp only
    split
    · next hret =>
      obtain rfl := hg (congrArg some hret)
      cases token with
      | none => exact ⟨.work rfl, fun _ => trivial⟩
      | some value => exact ⟨.work rfl, fun _ => ⟨.setex, fun _ => trivial⟩⟩
    · exact trivial

theorem works_request {request : Request}
    (h : ∀ foreign user pwd token, request ≠ .login foreign user pwd token) :
    Works request.handler := by
  cases request with
  | upload now user filename md5 size fileid fdfsFileUrl => exact works_upload _ _ _ _ _ _ _
  | dealMd5 now user md5 filename => exact works_dealMd5 _ _ _ _
  | saveFile now user md5 filename => exact works_saveFile _ _ _ _
  | shareFile enc now user md5 filename => exact works_shareFile _ _ _ _ _
  | cancelShareFile user md5 filename => exact works_cancelShareFile _ _ _
  | delFile enc user md5 filename => exact works_delFile _ _ _ _
  | pvFile user md5 filename => exact works_pvFile _ _ _
  | pvShareFile enc md5 filename => exact works_pvShareFile _ _ _
  | getRankingFilelist start count =>
    exact (works_getRankingFilelist start count).bind fun _ => trivial
  | userRegister now user nickName pwd tel email => exact works_userRegister _ _ _ _ _ _
  | login foreign user pwd token => exact absurd rfl (h foreign user pwd token)

theorem conforms_turn (turn : Turn) : Conforms store turn.protocol turn.handler none := by
  cases turn with
  | guarded user token errand => exact conforms_guarded
  | count arrays => exact conforms_count arrays
  | free request =>
    cases request with
    | login foreign user pwd token => exact conforms_login foreign user pwd token
    | _ =>
      refine .of_issues (fun _ _ => trivial) ((works_request ?_).allowed.bind fun _ => trivial)
      exact fun _ _ _ _ => Request.noConfusion

end Conformity

/-! ## What a step can do -/

section Steps

variable {turn : Turn} {g : Option Bool} {c : Command} {user : CString}

/-- Rows of the user table are appended and never changed. -/
theorem user_apply {statement : Statement} {t t' : Tables} (h : statement.apply t = some t') :
    ∃ rows, t'.user = t.user ++ rows := by
  cases statement with
  | insertFileInfo md5 fileId url size type count =>
    rw [Statement.apply] at h
    split at h <;> cases h
    exact ⟨[], (List.append_nil _).symm⟩
  | insertUserFileCount user count =>
    rw [Statement.apply] at h
    split at h <;> cases h
    exact ⟨[], (List.append_nil _).symm⟩
  | insertUser row =>
    rw [Statement.apply] at h
    split at h <;> cases h
    exact ⟨[row], rfl⟩
  | _ =>
    cases h
    exact ⟨[], (List.append_nil _).symm⟩

theorem find_user_exec {row : User} {s : Store} (c : Command)
    (h : s.tables.user.find? (·.name = user) = some row) :
    (store.exec c s).2.tables.user.find? (·.name = user) = some row := by
  cases c with
  | mysqlQuery statement =>
    rw [store_exec, Store.exec]
    split
    · exact h
    · next t happly =>
      obtain ⟨rows, hrows⟩ := user_apply happly
      rw [hrows, List.find?_append, h, Option.some_or]
  | _ => exact h

theorem key_of_isWork {command : RedisCommand}
    (h : (Command.redisCommand command).isWork = true) :
    command.key = FILE_PUBLIC_ZSET ∨ command.key = FILE_NAME_HASH := by
  cases command <;> first | cases h | simpa [Command.isWork, RedisCommand.ofRanking] using h

theorem deadlines_of_ne_key {command : RedisCommand} (h : user ≠ command.key) (t : Timed) :
    t.deadlines (.redisCommand command) user = t.deadline user := by
  cases command with
  | setex key seconds value => exact Function.update_of_ne h _ _
  | del key => exact Function.update_of_ne h _ _
  | _ => rfl

/-- The command leaves the session of the user alone. -/
def Spared (user : CString) (c : Command) (t : Timed) : Prop :=
  (timed.exec c t).2.store.redis user = t.store.redis user ∧ t.deadlines c user = t.deadline user

theorem spared_of_ne_key {command : RedisCommand} (h : user ≠ command.key) (t : Timed) :
    Spared user (.redisCommand command) t :=
  ⟨exec_of_ne_key t.store.redis h, deadlines_of_ne_key h t⟩

theorem spared_of_isWork (h : c.isWork = true) (hset : user ≠ FILE_PUBLIC_ZSET)
    (hhash : user ≠ FILE_NAME_HASH) (t : Timed) : Spared user c t := by
  cases c with
  | mysqlQuery statement =>
    refine ⟨?_, rfl⟩
    rw [timed_exec, store_exec, Store.exec]
    split <;> rfl
  | redisCommand command =>
    refine spared_of_ne_key ?_ t
    rintro rfl
    exact (key_of_isWork h).elim hset hhash
  | _ => exact ⟨rfl, rfl⟩

/-- Only a login that has found the password to be right writes the key of a user. -/
theorem spared_of_allows (hallows : turn.Allows g c) (hset : user ≠ FILE_PUBLIC_ZSET)
    (hhash : user ≠ FILE_NAME_HASH) (t : Timed) :
    Spared user c t ∨
      ∃ foreign pwd token, g = some true ∧ turn = .free (.login foreign user pwd (some token)) ∧
        (timed.exec c t).2.store.redis user = some (.string token) := by
  cases hallows with
  | work hwork => exact Or.inl (spared_of_isWork hwork hset hhash t)
  | token => exact Or.inl ⟨congrFun (exec_get t.store.redis _) user, rfl⟩
  | count => exact Or.inl ⟨congrFun (exec_get t.store.redis _) user, rfl⟩
  | password => exact Or.inl ⟨rfl, rfl⟩
  | @setex foreign name pwd value seconds =>
    rcases eq_or_ne user name with rfl | hne
    · exact Or.inr ⟨foreign, pwd, value, rfl, rfl, Function.update_self ..⟩
    · have hkey : user ≠ (RedisCommand.setex name seconds value).key := hne
      exact Or.inl (spared_of_ne_key hkey t)

theorem token_of_learns {token : CString} {errand : Errand}
    (hallows : (Turn.guarded user token errand).Allows g c) {s : Store} {right : Bool}
    (h : (Turn.guarded user token errand).learns c (store.exec c s).1 = some right) :
    right = (s.redis.token user = some token : Bool) := by
  cases hallows with
  | work hwork =>
    rw [learns_of_isWork hwork] at h
    cases h
  | token =>
    cases hvalue : s.redis user with
    | none => simpa [Redis.exec, Redis.token, Turn.learns, hvalue, eq_comm] using h
    | some value =>
      cases value with
      | string text => simpa [Redis.exec, Redis.token, Turn.learns, hvalue, eq_comm] using h
      | hash fields => simpa [Redis.exec, Redis.token, Turn.learns, hvalue, eq_comm] using h
      | zset members => simpa [Redis.exec, Redis.token, Turn.learns, hvalue, eq_comm] using h

theorem password_of_learns {foreign : ResultOne} {pwd : CString} {token : Option CString}
    (hallows : (Turn.free (.login foreign user pwd token)).Allows g c) (hplain : sqlPlain user = true)
    {s : Store} {row : User} (hrow : s.tables.user.find? (·.name = user) = some row)
    (h : (Turn.free (.login foreign user pwd token)).learns c (store.exec c s).1 = some true) :
    pwd = row.password := by
  cases hallows with
  | work hwork =>
    rw [learns_of_isWork hwork] at h
    cases h
  | password =>
    have hpwd : row.password = pwd := by simpa [Turn.learns, hplain, hrow, ResultOne.tmp] using h
    exact hpwd.symm
  | setex => cases h

end Steps

/-! ## All interleavings -/

section Sessions

variable {ι : Type} [DecidableEq ι] (server : Server) (turns : ι → Turn) (t : Timed)
  (user : CString)

/-- The turns side by side, each at its beginning. -/
def sessions : Pool ι Command Reply Answer (Option Bool) Timed :=
  Pool.start (fun i => (turns i).protocol) (fun i => (turns i).handler) t

/-- The turns after some of their commands, with seconds that passed in between. -/
def interleaved (events : List (Moment ι Nat)) : Pool ι Command Reply Answer (Option Bool) Timed :=
  (sessions turns t).runAmid timed (fun i => (turns i).protocol) Timed.pass events

/-- The same with servers that are sent texts. -/
def interleavedTexts (events : List (Moment ι Nat)) :
    Pool ι Command Reply Answer (Option Bool) (Option Timed) :=
  (sessions turns t).defined.runAmid (timedTexts server) (fun i => (turns i).protocol)
    (fun seconds => Option.map (Timed.pass seconds)) events

/-- Every text the turns send is in order. -/
def TextsInOrder (events : List (Moment ι Nat)) : Prop :=
  (sessions turns t).ObeysAmid timed (fun i => (turns i).protocol) Timed.pass
    (fun P i => P.Issuing Command.InOrder i) events

/-- The seconds that pass. -/
def elapsed : List (Moment ι Nat) → Nat
  | [] => 0
  | .turn _ :: rest => elapsed rest
  | .outside seconds :: rest => seconds + elapsed rest

/-- The token was there before, or it is that of a login with the password. -/
def Granted (password token : CString) : Prop :=
  t.store.redis.token user = some token ∨
    ∃ i foreign, turns i = .free (.login foreign user password (some token))

structure Sound (row : User) (P : Pool ι Command Reply Answer (Option Bool) Timed) : Prop where
  listed : P.store.store.tables.user.find? (·.name = user) = some row
  token : ∀ token, P.store.store.redis.token user = some token →
    Granted turns t user row.password token
  presented : ∀ i token errand, turns i = .guarded user token errand → P.stages i = some true →
    Granted turns t user row.password token
  proved : ∀ i foreign pwd token, turns i = .free (.login foreign user pwd token) →
    P.stages i = some true → pwd = row.password

variable {server turns t user}

theorem interleavedTexts_eq {events : List (Moment ι Nat)} (h : TextsInOrder turns t events) :
    interleavedTexts server turns t events = (interleaved turns t events).defined :=
  Pool.runAmid_deviate (h.mono fun _ _ hi => hi.mono fun c => (timed_spares_iff server c).mpr)

/-- Turns with strings that leave the texts alone, as long as the counts are ints. -/
theorem textsInOrder_of_wellWorded (h : ∀ i, (turns i).WellWorded) {events : List (Moment ι Nat)}
    (hint : (sessions turns t).ObeysAmid timed (fun i => (turns i).protocol) Timed.pass
      (fun P i => P.Issuing Command.InInt i) events) : TextsInOrder turns t events := by
  have hworded : (sessions turns t).ObeysAmid timed (fun i => (turns i).protocol) Timed.pass
      (fun P i => P.Issuing Command.Worded i) events :=
    Pool.obeysAmid_of_issues (fun i => worded_turn (h i)) events
  refine (hworded.and hint).mono fun P i hi => ?_
  exact (hi.1.and hi.2).mono fun c hc => hc.1.inOrder hc.2

theorem stages_step {P : Pool ι Command Reply Answer (Option Bool) Timed} {i j : ι} {c : Command}
    {next : Reply c → Handler Answer} (hcall : P.procs i = .call c next) {right : Bool}
    (h : (P.step timed (fun i => (turns i).protocol) i).stages j = some right) :
    P.stages j = some right ∨
      j = i ∧ (turns j).learns c (store.exec c P.store.store).1 = some right := by
  rw [Pool.step_of_call hcall] at h
  dsimp only at h
  rcases eq_or_ne j i with rfl | hne
  · rw [Function.update_self] at h
    rcases Option.or_eq_some_iff.mp h with hlearns | ⟨-, hbefore⟩
    · exact Or.inr ⟨rfl, hlearns⟩
    · exact Or.inl hbefore
  · rw [Function.update_of_ne hne] at h
    exact Or.inl h

omit [DecidableEq ι] in
theorem conforming_sessions : (sessions turns t).Conforming timed fun i => (turns i).protocol :=
  fun i => timed_extends.conforms (conforms_turn (turns i))

theorem Sound.step {row : User} {P : Pool ι Command Reply Answer (Option Bool) Timed}
    (h : Sound turns t user row P) (hplain : sqlPlain user = true) (hset : user ≠ FILE_PUBLIC_ZSET)
    (hhash : user ≠ FILE_NAME_HASH) {i : ι} {c : Command} {next : Reply c → Handler Answer}
    (hcall : P.procs i = .call c next) (hallows : (turns i).Allows (P.stages i) c) :
    Sound turns t user row (P.step timed (fun i => (turns i).protocol) i) where
  listed := by
    rw [Pool.step_of_call hcall]
    exact find_user_exec c h.listed
  token token htoken := by
    rw [Pool.step_of_call hcall] at htoken
    rw [Redis.token] at htoken
    rcases spared_of_allows hallows hset hhash P.store with
      ⟨hsame, -⟩ | ⟨foreign, pwd, value, hright, hturn, hvalue⟩
    · rw [hsame] at htoken
      exact h.token token htoken
    · rw [hvalue] at htoken
      cases htoken
      obtain rfl := h.proved i foreign pwd (some token) hturn hright
      exact Or.inr ⟨i, foreign, hturn⟩
  presented j token errand hturn hstage := by
    rcases stages_step hcall hstage with hbefore | ⟨rfl, hlearns⟩
    · exact h.presented j token errand hturn hbefore
    · rw [hturn] at hallows hlearns
      have hright := token_of_learns hallows hlearns
      exact h.token token (of_decide_eq_true hright.symm)
  proved j foreign pwd token hturn hstage := by
    rcases stages_step hcall hstage with hbefore | ⟨rfl, hlearns⟩
    · exact h.proved j foreign pwd token hturn hbefore
    · rw [hturn] at hallows hlearns
      exact password_of_learns hallows hplain h.listed hlearns

theorem token_pass {seconds : Nat} {token : CString}
    (h : (t.pass seconds).store.redis.token user = some token) :
    t.store.redis.token user = some token := by
  rw [Redis.token, Timed.redis_pass] at h
  cases hended : t.ended user (t.now + seconds) with
  | false =>
    rw [hended] at h
    exact h
  | true =>
    rw [hended] at h
    cases h

omit [DecidableEq ι] in
/-- Time takes tokens away and brings none. -/
theorem Sound.pass {row : User} {P : Pool ι Command Reply Answer (Option Bool) Timed}
    (h : Sound turns t user row P) (seconds : Nat) :
    Sound turns t user row { P with store := P.store.pass seconds } :=
  { h with token := fun token htoken => h.token token (token_pass htoken) }

theorem sound_interleaved {row : User} (hplain : sqlPlain user = true)
    (hset : user ≠ FILE_PUBLIC_ZSET) (hhash : user ≠ FILE_NAME_HASH)
    (hrow : t.store.tables.user.find? (·.name = user) = some row) (events : List (Moment ι Nat)) :
    Sound turns t user row (interleaved turns t events) := by
  have hstart : Sound turns t user row (sessions turns t) :=
    ⟨hrow, fun _ => Or.inl, fun _ _ _ _ h => (nomatch h), fun _ _ _ _ _ h => (nomatch h)⟩
  refine (Pool.invariantAmid ?_ ?_ conforming_sessions hstart events).2
  · intro P i c next hcall hallows hP
    exact hP.step hplain hset hhash hcall hallows
  · exact fun P seconds hP => hP.pass seconds

/-- What a guarded turn has answered tells what it had learned. -/
theorem stage_of_answer {i : ι} {token : CString} {errand : Errand} {events : List (Moment ι Nat)}
    {response : Response} (hturn : turns i = .guarded user token errand)
    (hdone : (interleaved turns t events).procs i = .done (.response (some response))) :
    (interleaved turns t events).stages i = some (response ≠ .status (bytes "111") : Bool) := by
  have hconf : (interleaved turns t events).Conforming timed fun i => (turns i).protocol :=
    (Pool.invariantAmid (J := fun _ => True) (fun _ _ _ _ _ _ _ => trivial)
      (fun _ _ _ => trivial) conforming_sessions trivial events).1
  have hfinal := hconf.final hdone
  rwa [hturn] at hfinal

/-- However the turns interleave, a user's session is one that was there or one that a login with
the user's password was given, and nothing is done for a user without it. -/
theorem session_granted (server : Server) {row : User} (hplain : sqlPlain user = true)
    (hset : user ≠ FILE_PUBLIC_ZSET) (hhash : user ≠ FILE_NAME_HASH)
    (hrow : t.store.tables.user.find? (·.name = user) = some row) {turns : ι → Turn}
    {events : List (Moment ι Nat)} (horder : TextsInOrder turns t events) :
    ∃ u, (interleavedTexts server turns t events).store = some u ∧
      (∀ token, u.store.redis.token user = some token →
        Granted turns t user row.password token) ∧
      ∀ i token errand response, turns i = .guarded user token errand →
        (interleavedTexts server turns t events).procs i = .done (.response (some response)) →
        response ≠ .status (bytes "111") → Granted turns t user row.password token := by
  have hsound : Sound turns t user row (interleaved turns t events) :=
    sound_interleaved hplain hset hhash hrow events
  rw [interleavedTexts_eq horder]
  refine ⟨_, rfl, hsound.token, fun i token errand response hturn hdone hresponse => ?_⟩
  apply hsound.presented i token errand hturn
  rw [stage_of_answer hturn hdone, decide_eq_true hresponse]

/-- The user `a` with the password `p`, who is not logged in. -/
def Store.enrolled : Store :=
  { Store.empty with tables := { Tables.empty with user := [⟨[0x61], [], [0x70], [], [], []⟩] } }

def Timed.enrolled : Timed := ⟨Store.enrolled, fun _ => none, 0⟩

/-- Somebody registers as `b`. -/
def registration : Turn :=
  .free (.userRegister (bytes "today") [0x62] [0x62] [0x71] [0x31] (bytes "b@c"))

/-- The clients whose turns are interleaved below. -/
inductive Client where
  | early
  | late
  | entering
  | other
deriving DecidableEq

/-- A login between two requests with the token it is given, and a registration beside them. -/
def loginBetween : Client → Turn
  | .entering => .free (.login .noRow [0x61] [0x70] (some [0x74]))
  | .other => registration
  | _ => .guarded [0x61] [0x74] (.files (bytes "normal") 0 1)

def loginEvents : List (Moment Client Nat) :=
  [.turn .early, .turn .entering, .turn .other, .turn .entering, .turn .early, .turn .other,
    .turn .entering, .outside 3, .turn .entering, .turn .other, .turn .other, .turn .entering,
    .outside 60, .turn .late, .turn .late, .turn .late, .turn .late, .turn .late]

theorem session_granted_login :
    ∃ u, (interleavedTexts (fun c t => (c.failed, t)) loginBetween .enrolled loginEvents).store =
        some u ∧
      u.store.redis.token [0x61] = some [0x74] ∧ u.store.tables.user.length = 2 ∧
      (interleavedTexts (fun c t => (c.failed, t)) loginBetween .enrolled loginEvents).procs .early =
        .done (.response (some (.status (bytes "111")))) ∧
      (interleavedTexts (fun c t => (c.failed, t)) loginBetween .enrolled loginEvents).procs .late =
        .done (.response (some (.status (bytes "015")))) ∧
      Granted loginBetween .enrolled [0x61] [0x70] [0x74] := by
  have horder : TextsInOrder loginBetween .enrolled loginEvents :=
    textsInOrder_of_wellWorded (fun i => by cases i <;> decide) (by decide)
  have hrow : Timed.enrolled.store.tables.user.find? (·.name = [0x61]) =
      some ⟨[0x61], [], [0x70], [], [], []⟩ := rfl
  obtain ⟨u, hu, -, hserved⟩ := session_granted (fun c t => (c.failed, t)) (by decide) (by decide)
    (by decide) hrow horder
  have hanswer := hserved .late [0x74] _ (.status (bytes "015")) rfl
  rw [interleavedTexts_eq horder] at hu hanswer ⊢
  cases hu
  exact ⟨_, rfl, by decide, by decide, rfl, rfl, hanswer rfl (by decide)⟩

/-! ### Others -/

/-- The key is as it was until its time is over, and then it is gone. -/
structure Kept (turns : ι → Turn) (t : Timed) (user : CString)
    (P : Pool ι Command Reply Answer (Option Bool) Timed) : Prop where
  token : P.store.store.redis user =
    if t.ended user P.store.now then none else t.store.redis user
  deadline : P.store.deadline user = if t.ended user P.store.now then none else t.deadline user
  right : ∀ i token errand, turns i = .guarded user token errand → P.stages i = some true →
    t.store.redis.token user = some token
  wrong : ∀ i token errand, turns i = .guarded user token errand → P.stages i = some false →
    t.store.redis.token user = some token → t.ended user P.store.now = true

omit [DecidableEq ι] in
theorem Kept.token_eq {P : Pool ι Command Reply Answer (Option Bool) Timed}
    (h : Kept turns t user P) : P.store.store.redis.token user =
      if t.ended user P.store.now then none else t.store.redis.token user := by
  rw [Redis.token, h.token]
  cases t.ended user P.store.now <;> rfl

theorem Kept.step {P : Pool ι Command Reply Answer (Option Bool) Timed}
    (h : Kept turns t user P) (hset : user ≠ FILE_PUBLIC_ZSET) (hhash : user ≠ FILE_NAME_HASH)
    (hlogin : ∀ i foreign pwd token, turns i ≠ .free (.login foreign user pwd token)) {i : ι}
    {c : Command} {next : Reply c → Handler Answer} (hcall : P.procs i = .call c next)
    (hallows : (turns i).Allows (P.stages i) c) :
    Kept turns t user (P.step timed (fun i => (turns i).protocol) i) := by
  have hspared : Spared user c P.store := by
    rcases spared_of_allows hallows hset hhash P.store with
      hspared | ⟨foreign, pwd, token, -, hturn, -⟩
    · exact hspared
    · exact absurd hturn (hlogin i foreign pwd (some token))
  have hstore : (P.step timed (fun i => (turns i).protocol) i).store = (timed.exec c P.store).2 := by
    rw [Pool.step_of_call hcall]
  refine ⟨?_, ?_, ?_, ?_⟩
  · rw [hstore, hspared.1]
    exact h.token
  · rw [hstore]
    exact hspared.2.trans h.deadline
  · intro j token errand hturn hstage
    rcases stages_step hcall hstage with hbefore | ⟨rfl, hlearns⟩
    · exact h.right j token errand hturn hbefore
    · rw [hturn] at hallows hlearns
      have htoken := of_decide_eq_true (token_of_learns hallows hlearns).symm
      rw [h.token_eq] at htoken
      exact (Option.ite_none_left_eq_some.mp htoken).2
  · intro j token errand hturn hstage hold
    rw [hstore]
    rcases stages_step hcall hstage with hbefore | ⟨rfl, hlearns⟩
    · exact h.wrong j token errand hturn hbefore hold
    · rw [hturn] at hallows hlearns
      have htoken := of_decide_eq_false (token_of_learns hallows hlearns).symm
      rw [h.token_eq] at htoken
      by_contra hlive
      exact htoken (Option.ite_none_left_eq_some.mpr ⟨hlive, hold⟩)

omit [DecidableEq ι] in
theorem Kept.pass {P : Pool ι Command Reply Answer (Option Bool) Timed} (h : Kept turns t user P)
    (seconds : Nat) : Kept turns t user { P with store := P.store.pass seconds } := by
  have hlater (hended : t.ended user P.store.now = true) :
      t.ended user (P.store.now + seconds) = true := t.ended_mono hended (Nat.le_add_right _ _)
  -- what has gone before is not brought back, and what goes now goes by the lifetime in `t`
  have hpassed {β : Type} (value : Option β) :
      (if P.store.ended user (P.store.now + seconds) then none
        else if t.ended user P.store.now then none else value) =
        if t.ended user (P.store.now + seconds) then none else value := by
    rw [Timed.ended, h.deadline]
    cases hended : t.ended user P.store.now with
    | false => rfl
    | true => simp [hlater hended]
  refine ⟨?_, ?_, h.right, fun i token errand hturn hstage hold => ?_⟩
  · change (P.store.pass seconds).store.redis user = _
    rw [Timed.redis_pass, h.token]
    exact hpassed _
  · change (P.store.pass seconds).deadline user = _
    rw [Timed.deadline_pass, h.deadline]
    exact hpassed _
  · exact hlater (h.wrong i token errand hturn hstage hold)

theorem kept_interleaved (hset : user ≠ FILE_PUBLIC_ZSET) (hhash : user ≠ FILE_NAME_HASH)
    (hlogin : ∀ i foreign pwd token, turns i ≠ .free (.login foreign user pwd token))
    (hlives : t.ended user t.now = false) (events : List (Moment ι Nat)) :
    Kept turns t user (interleaved turns t events) := by
  have hstart : Kept turns t user (sessions turns t) := by
    refine ⟨?_, ?_, fun _ _ _ _ h => (nomatch h), fun _ _ _ _ h => (nomatch h)⟩
    · rw [show (sessions turns t).store = t from rfl, hlives, if_neg Bool.false_ne_true]
    · rw [show (sessions turns t).store = t from rfl, hlives, if_neg Bool.false_ne_true]
  refine (Pool.invariantAmid ?_ ?_ conforming_sessions hstart events).2
  · intro P i c next hcall hallows hP
    exact hP.step hset hhash hlogin hcall hallows
  · exact fun P seconds hP => hP.pass seconds

theorem now_runAmid (P : Pool ι Command Reply Answer (Option Bool) Timed)
    (events : List (Moment ι Nat)) :
    (P.runAmid timed (fun i => (turns i).protocol) Timed.pass events).store.now =
      P.store.now + elapsed events := by
  induction events generalizing P with
  | nil => rfl
  | cons event rest ih =>
    refine (ih _).trans ?_
    cases event with
    | outside seconds => exact Nat.add_assoc _ _ _
    | turn i =>
      rw [elapsed, Pool.happen, Pool.step]
      split <;> rfl

/-- As long as the user does not log in again, the session stays until its time is over, whatever
the others do. A request of the user that is not refused has the token of the session, and one
that has it is not refused before the time is over. -/
theorem session_kept (server : Server) (hset : user ≠ FILE_PUBLIC_ZSET)
    (hhash : user ≠ FILE_NAME_HASH)
    (hlogin : ∀ i foreign pwd token, turns i ≠ .free (.login foreign user pwd token))
    (hlives : t.ended user t.now = false) {events : List (Moment ι Nat)}
    (horder : TextsInOrder turns t events) :
    ∃ u, (interleavedTexts server turns t events).store = some u ∧
      u.store.redis.token user =
        (if t.ended user (t.now + elapsed events) then none else t.store.redis.token user) ∧
      ∀ i token errand response, turns i = .guarded user token errand →
        (interleavedTexts server turns t events).procs i = .done (.response (some response)) →
        (response ≠ .status (bytes "111") → t.store.redis.token user = some token) ∧
        (t.store.redis.token user = some token → t.ended user (t.now + elapsed events) = false →
          response ≠ .status (bytes "111")) := by
  have hkept : Kept turns t user (interleaved turns t events) :=
    kept_interleaved hset hhash hlogin hlives events
  have hnow : (interleaved turns t events).store.now = t.now + elapsed events :=
    now_runAmid (sessions turns t) events
  rw [interleavedTexts_eq horder, ← hnow]
  refine ⟨_, rfl, hkept.token_eq, fun i token errand response hturn hdone => ?_⟩
  have hstage := stage_of_answer hturn hdone
  constructor
  · intro hresponse
    rw [decide_eq_true hresponse] at hstage
    exact hkept.right i token errand hturn hstage
  · intro hold hlive hresponse
    rw [hresponse] at hstage
    have hended := hkept.wrong i token errand hturn hstage hold
    rw [hlive] at hended
    cases hended

/-- The store with a new token for the user, for a day. -/
def Timed.granted (t : Timed) (user token : CString) : Timed :=
  (timed.exec (.redisCommand (.setex user (24 * 60 * 60) token)) t).2

/-- Requests of `a` with the token of the session and with another one, beside a registration and
a login of somebody else. -/
def othersBeside : Client → Turn
  | .early => .guarded [0x61] [0x74] (.files (bytes "normal") 0 1)
  | .late => .guarded [0x61] [0x75] (.files (bytes "normal") 0 1)
  | .entering => .free (.login .noRow [0x62] [0x71] (some [0x76]))
  | .other => registration

def othersEvents : List (Moment Client Nat) :=
  [.turn .other, .turn .early, .outside 3600, .turn .other, .turn .late, .turn .other,
    .turn .other, .turn .entering, .turn .late, .turn .entering, .outside 82799, .turn .entering,
    .turn .early, .turn .early, .turn .entering, .turn .entering, .turn .early, .turn .early]

theorem login_ne_othersBeside (i : Client) (foreign : ResultOne) (pwd : CString)
    (token : Option CString) : othersBeside i ≠ .free (.login foreign [0x61] pwd token) := by
  cases i with
  | early | late => exact Turn.noConfusion
  | entering | other => simp [othersBeside, registration]

theorem session_kept_beside :
    (∃ u, (interleavedTexts (fun c t => (c.failed, t)) othersBeside
        (Timed.enrolled.granted [0x61] [0x74]) othersEvents).store = some u ∧
      u.store.redis.token [0x61] = some [0x74] ∧ u.store.redis.token [0x62] = some [0x76] ∧
      (interleavedTexts (fun c t => (c.failed, t)) othersBeside
        (Timed.enrolled.granted [0x61] [0x74]) othersEvents).procs .late =
          .done (.response (some (.status (bytes "111"))))) ∧
    ∃ u, (interleavedTexts (fun c t => (c.failed, t)) othersBeside
        (Timed.enrolled.granted [0x61] [0x74]) (othersEvents ++ [.outside 1])).store = some u ∧
      u.store.redis.token [0x61] = none := by
  have hworded (i : Client) : (othersBeside i).WellWorded := by cases i <;> decide
  have horder : TextsInOrder othersBeside (Timed.enrolled.granted [0x61] [0x74]) othersEvents :=
    textsInOrder_of_wellWorded hworded (by decide)
  have horder' : TextsInOrder othersBeside (Timed.enrolled.granted [0x61] [0x74])
      (othersEvents ++ [.outside 1]) := textsInOrder_of_wellWorded hworded (by decide)
  constructor
  · obtain ⟨u, hu, htoken, -⟩ := session_kept (fun c t => (c.failed, t)) (by decide) (by decide)
      login_ne_othersBeside (by decide) horder
    refine ⟨u, hu, htoken.trans (by decide), ?_⟩
    rw [interleavedTexts_eq horder] at hu ⊢
    cases hu
    exact ⟨by decide, rfl⟩
  · obtain ⟨u, hu, htoken, -⟩ := session_kept (fun c t => (c.failed, t)) (by decide) (by decide)
      login_ne_othersBeside (by decide) horder'
    exact ⟨u, hu, htoken.trans (by decide)⟩

end Sessions

end HfDfs
