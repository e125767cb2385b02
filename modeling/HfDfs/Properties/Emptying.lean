import HfDfs.Library.Environment
import HfDfs.Requests

/-!
# Requests while Redis may be emptied

Redis loses everything at any moment: between two requests or between two
commands of one. For most requests that is no more than losing it before
or after the request. Those that write to Redis twice can also leave the
second write alone behind.
-/

namespace HfDfs

set_option autoImplicit false

open Procedures Procedures.Procedure Zlexcount ScoredSets

def Store.flush (s : Store) : Store := { s with redis := .empty }

/-- Redis was emptied, or nothing happened. -/
def Store.Emptied (s t : Store) : Prop := t = s ∨ t = s.flush

/-- Redis is emptied before the commands whose number is in the plan. -/
def emptying (plan : Nat → Bool) (n : Nat) (s : Store) : Store := if plan n then s.flush else s

def Request.serveAmid (plan : Nat → Bool) (r : Request) (s : Store) : Store :=
  (r.handler.runAmid store (emptying plan) 0 s).2

theorem Store.Emptied.trans {s t u : Store} (hst : s.Emptied t) (htu : t.Emptied u) :
    s.Emptied u := by
  rcases hst with rfl | rfl
  · exact htu
  · rcases htu with rfl | rfl
    · exact Or.inr rfl
    · exact Or.inr rfl

theorem Store.Emptied.tables {s t : Store} (h : s.Emptied t) : t.tables = s.tables := by
  rcases h with rfl | rfl
  · rfl
  · rfl

theorem Store.Emptied.flush_eq {s t : Store} (h : s.Emptied t) : t.flush = s.flush := by
  rcases h with rfl | rfl
  · rfl
  · rfl

theorem emptied_emptying (plan : Nat → Bool) (n : Nat) (s : Store) :
    s.Emptied (emptying plan n s) := by
  cases h : plan n with
  | false => exact Or.inl (by simp [emptying, h])
  | true => exact Or.inr (by simp [emptying, h])

theorem serveAmid_of_still {plan : Nat → Bool} (h : ∀ n, plan n = false) (r : Request) (s : Store) :
    r.serveAmid plan s = r.serve s := by
  rw [Request.serveAmid, runAmid_of_still, Request.serve]
  intro n t
  simp [emptying, h]

/-! ## Requests that do not notice -/

def Command.offRedis : Command → Bool
  | .redisCommand _ => false
  | _ => true

theorem unaware_of_offRedis {c : Command} (hc : c.offRedis = true) :
    Unaware store Store.Emptied c := by
  rintro s t (rfl | rfl)
  · exact ⟨rfl, Or.inl rfl⟩
  · cases c with
    | mysqlQuery statement =>
      simp only [store_exec, Store.exec, Store.flush]
      cases statement.apply s.tables with
      | none => exact ⟨rfl, Or.inr rfl⟩
      | some tables => exact ⟨rfl, Or.inr rfl⟩
    | redisCommand command => cases hc
    | _ => exact ⟨rfl, Or.inr rfl⟩

section Steady

variable {α : Type}

theorem steady_offRedis {c : Command} (hc : c.offRedis = true) {next : Reply c → Handler α}
    (h : ∀ r, (next r).Steady store Store.Emptied) :
    Steady store Store.Emptied (.call c next) :=
  steady_call (fun _ _ _ hst htu => hst.trans htu) (unaware_of_offRedis hc) h

theorem steady_mysqlQuery (statement : Statement) {failed : α} {rest : Handler α}
    (h : rest.Steady store Store.Emptied) :
    Steady store Store.Emptied (do
      if !(← mysqlQuery statement) then return failed
      rest) := by
  refine steady_offRedis rfl fun r => ?_
  cases r with
  | false => exact steady_done _
  | true => exact h

/-- How a handler that works on MySQL only begins. -/
theorem steady_msqlConn {failed : α} {rest : Handler α} (h : rest.Steady store Store.Emptied) :
    Steady store Store.Emptied (do
      if !(← msqlConn) then return failed
      let _ ← mysqlQuery .setNames
      rest) := by
  refine steady_offRedis rfl fun connected => ?_
  cases connected with
  | false => exact steady_done _
  | true => exact steady_offRedis rfl fun _ => h

end Steady

theorem steady_query (statement : Statement) : (mysqlQuery statement).Steady store Store.Emptied :=
  steady_offRedis rfl fun _ => steady_done _

theorem steady_resultOne (query : Query) (save : Bool) :
    Steady store Store.Emptied (.call (.processResultOne query save) .done : Handler ResultOne) :=
  steady_offRedis rfl fun _ => steady_done _

theorem steady_raiseFileCount (user : CString) :
    (raiseFileCount user).Steady store Store.Emptied :=
  steady_offRedis rfl fun _ => steady_offRedis rfl fun _ => steady_done _

theorem steady_lowerFileCount (count : Int) (user : CString) :
    (lowerFileCount count user).Steady store Store.Emptied :=
  steady_offRedis rfl fun _ => steady_done _

theorem steady_addUserFile (now user md5 filename : CString) :
    (addUserFile now user md5 filename).Steady store Store.Emptied := by
  refine steady_mysqlQuery _ ((steady_raiseFileCount user).bind fun raised => ?_)
  cases raised with
  | false => exact steady_done _
  | true => exact steady_done _

theorem steady_addReference (count : Int) (now user md5 filename : CString) :
    (addReference count now user md5 filename).Steady store Store.Emptied :=
  steady_mysqlQuery _ (steady_addUserFile now user md5 filename)

theorem steady_upload (now user filename md5 : CString) (size : Int) (fileid url : CString) :
    (upload now user filename md5 size fileid url).Steady store Store.Emptied := by
  refine steady_offRedis rfl fun stored => ?_
  cases stored with
  | false => exact steady_done _
  | true =>
    exact steady_msqlConn (steady_mysqlQuery _ (steady_addUserFile now user md5 filename))

theorem steady_dealMd5 (now user md5 filename : CString) :
    (dealMd5 now user md5 filename).Steady store Store.Emptied := by
  refine steady_msqlConn (steady_offRedis rfl fun r => ?_)
  cases r with
  | row tmp =>
    refine steady_offRedis rfl fun saved => ?_
    cases saved with
    | notSaved => exact steady_done _
    | _ => exact steady_addReference _ now user md5 filename
  | _ => exact steady_done _

theorem steady_saveFile (now user md5 filename : CString) :
    (saveFile now user md5 filename).Steady store Store.Emptied := by
  refine steady_msqlConn (steady_offRedis rfl fun saved => ?_)
  cases saved with
  | notSaved => exact steady_done _
  | failed | noRow | row buf =>
    refine steady_offRedis rfl fun r => ?_
    cases r with
    | row tmp => exact steady_addReference _ now user md5 filename
    | _ => exact steady_done _

theorem steady_pvFile (user md5 filename : CString) :
    (pvFile user md5 filename).Steady store Store.Emptied := by
  refine steady_msqlConn (steady_offRedis rfl fun r => ?_)
  cases r with
  | row tmp => exact steady_mysqlQuery _ (steady_done _)
  | _ => exact steady_done _

theorem steady_userRegister (now user nickName pwd tel email : CString) :
    (userRegister now user nickName pwd tel email).Steady store Store.Emptied := by
  refine steady_msqlConn (steady_offRedis rfl fun saved => ?_)
  cases saved with
  | notSaved => exact steady_done _
  | _ => exact steady_mysqlQuery _ (steady_done _)

theorem steady_delFileInfo (md5 : CString) :
    (delFileInfo md5).Steady store Store.Emptied := by
  refine steady_offRedis rfl fun r => ?_
  cases r with
  | row tmp =>
    refine steady_mysqlQuery _ ?_
    rcases eq_or_ne (tmp.atoi - 1) 0 with h0 | h0
    · rw [if_neg (not_not.mpr h0)]
      refine steady_offRedis rfl fun r => ?_
      cases r with
      | row tmp =>
        refine steady_mysqlQuery _ (steady_offRedis rfl fun removed => ?_)
        cases removed with
        | false => exact steady_done _
        | true => exact steady_done _
      | _ => exact steady_done _
    · rw [if_pos h0]
      exact steady_done _
  | _ => exact steady_done _

theorem steady_delUserFile (user md5 filename : CString) :
    (delUserFile user md5 filename).Steady store Store.Emptied := by
  refine steady_offRedis rfl fun r => ?_
  cases r with
  | row tmp =>
    refine (steady_lowerFileCount _ user).bind fun lowered => ?_
    cases lowered with
    | false => exact steady_done _
    | true => exact steady_mysqlQuery _ (steady_delFileInfo md5)
  | _ => exact steady_done _

/-- A Redis command without effect on an empty Redis whose reply is dropped. -/
theorem steady_dropped {α : Type} {command : RedisCommand} {rest : Handler α}
    (hcommand : (Redis.empty.exec command).2 = .empty) (h : rest.Steady store Store.Emptied) :
    Steady store Store.Emptied (.call (.redisCommand command) fun _ => rest) := by
  intro s t hst u htu
  rcases hst.trans htu with rfl | rfl
  · exact h _ _ (Or.inl rfl)
  · refine h _ _ (Or.inr ?_)
    simp [Store.flush, hcommand]

theorem steady_delCache (flag : Bool) (md5 filename : CString) :
    (delCache flag md5 filename).Steady store Store.Emptied := by
  cases flag with
  | false => exact steady_done _
  | true => exact steady_dropped rfl (steady_dropped rfl (steady_done _))

theorem steady_delShareFile (flag : Bool) (user md5 filename : CString) :
    (delShareFile flag user md5 filename).Steady store Store.Emptied := by
  refine steady_mysqlQuery _ (steady_offRedis rfl fun r => ?_)
  cases r with
  | row tmp =>
    exact steady_mysqlQuery _ ((steady_delCache flag md5 filename).bind fun _ => steady_done _)
  | _ => exact steady_done _

theorem steady_delRecords (share : Int) (flag : Bool) (user md5 filename : CString) :
    (delRecords share flag user md5 filename).Steady store Store.Emptied := by
  rw [delRecords]
  split
  · refine (steady_delShareFile flag user md5 filename).bind fun deleted => ?_
    cases deleted with
    | false => exact steady_done _
    | true => exact steady_delUserFile user md5 filename
  · exact steady_delUserFile user md5 filename

/-! ## Emptied before or after -/

/-- The store is what an undisturbed run leaves, Redis having been emptied before it,
after it, both or not at all. -/
def Around {α : Type} (p : Handler α) (s y : Store) : Prop :=
  ∃ x, s.Emptied x ∧ (p.run store x).2.Emptied y

theorem around_of_steady {α : Type} {p : Handler α} (h : p.Steady store Store.Emptied) (s : Store) :
    p.Withstands store Store.Emptied (fun _ y => Around p s y) s :=
  (h s s (Or.inl rfl)).mono fun _ _ hy => ⟨s, Or.inl rfl, hy.2⟩

theorem withstands_begin {α : Type} {Q : α → Store → Prop} {failed : α} {rest : Handler α}
    {s : Store} (h : ∀ t, s.Emptied t → rest.Withstands store Store.Emptied Q t) :
    Withstands store Store.Emptied Q (do
      if !(← ropConnectdbNopwd) then return failed
      if !(← msqlConn) then return failed
      let _ ← mysqlQuery .setNames
      rest) s :=
  fun _ h1 _ h2 t h3 => h t (h1.trans (h2.trans h3))

section Once

variable (key mark name : CString) (score : Int) (enc : Encoding)

theorem once_ropZsetExit : Once (ropZsetExit key mark enc) := by
  intro reply
  cases reply <;> exact ⟨_, rfl⟩

theorem once_ropZsetAdd : Once (ropZsetAdd key score mark) := fun _ => ⟨_, rfl⟩

theorem once_ropZsetZrem : Once (ropZsetZrem key mark) := fun _ => ⟨_, rfl⟩

theorem once_ropHashSet : Once (ropHashSet key mark name) := by
  intro reply
  cases reply <;> exact ⟨_, rfl⟩

theorem once_ropZsetIncrement : Once (ropZsetIncrement key mark) := by
  intro reply
  cases reply <;> exact ⟨_, rfl⟩

theorem once_ropHashDel : Once (ropHashDel key mark) := fun _ => ⟨_, rfl⟩

end Once

theorem withstands_delFile (enc : Encoding) (user md5 filename : CString) (s : Store) :
    (delFile enc user md5 filename).Withstands store Store.Emptied
      (fun _ y => Around (delFile enc user md5 filename) s y) s := by
  refine withstands_begin fun t ht => (once_ropZsetExit _ _ _).first fun x hx => ?_
  rw [run_ropZsetExit]
  have hs := ht.trans hx
  rcases eq_or_ne (x.redis.presence (fileid md5 filename) enc) 1 with h1 | h1
  · rw [if_pos h1]
    refine (steady_delRecords 1 true user md5 filename x x (Or.inl rfl)).mono fun _ y hy => ?_
    refine ⟨x, hs, ?_⟩
    rw [run_delFile, if_pos h1]
    exact hy.2
  rw [if_neg h1]
  rcases eq_or_ne (x.redis.presence (fileid md5 filename) enc) 0 with h0 | h0
  · rw [if_pos h0, processResultOne, call_bind, withstands_call]
    intro u hu
    have hrecords : (delRecords (x.tables.status user md5 filename) false user md5
        filename).Withstands store Store.Emptied
        (fun _ y => Around (delFile enc user md5 filename) s y) u := by
      refine (steady_delRecords _ false user md5 filename x u hu).mono fun _ y hy => ⟨x, hs, ?_⟩
      rw [run_delFile, if_neg h1, if_pos h0]
      exact hy.2
    simp only [store_exec, Store.exec, Query.result, resultOne_first, hu.tables, done_bind]
    rw [Tables.status] at hrecords
    cases hrow : x.tables.userFileList.find? (·.is user md5 filename) with
    | none =>
      rw [hrow] at hrecords
      exact hrecords
    | some r =>
      rw [hrow] at hrecords
      exact hrecords
  · rw [if_neg h0]
    refine ⟨x, hs, ?_⟩
    rw [run_delFile, if_neg h1, if_neg h0]
    exact Or.inl rfl

theorem withstands_mysqlQuery {α : Type} {Q : α → Store → Prop} {statement : Statement}
    {failed : α} {rest : Handler α} {s t : Store} {tables : Tables} (hst : s.Emptied t)
    (hafter : statement.apply s.tables = some tables)
    (h : ∀ u, ({ s with tables := tables } : Store).Emptied u →
      rest.Withstands store Store.Emptied Q u) :
    Withstands store Store.Emptied Q (do
      if !(← mysqlQuery statement) then return failed
      rest) t := by
  have hrun : (mysqlQuery statement).run store s = (true, { s with tables := tables }) := by
    rw [mysqlQuery, run_call, run_done, store_exec, Store.exec, hafter]
  refine (steady_query statement).first hst fun u hu => ?_
  rw [hrun] at hu ⊢
  exact h u hu

theorem withstands_processResultOne {α : Type} {Q : α → Store → Prop} {query : Query} {save : Bool}
    {next : ResultOne → Handler α} {s t : Store} (hst : s.Emptied t)
    (h : ∀ u, s.Emptied u →
      (next (resultOne (query.result s.tables) save)).Withstands store Store.Emptied Q u) :
    Withstands store Store.Emptied Q
      ((.call (.processResultOne query save) .done : Handler ResultOne) >>= next) t :=
  (steady_resultOne query save).first hst h

/-- The end of `cancel_share_file`. -/
theorem withstands_withdraw (mark : CString) {s t : Store} (hst : s.Emptied t) :
    Withstands store Store.Emptied
      (fun _ y => Store.Emptied
        ⟨s.tables, if s.redis.ranked mark then s.redis.unpublish mark else s.redis, s.storage⟩ y)
      (do
        let ret ← ropZsetZrem FILE_PUBLIC_ZSET mark
        if ret ≠ 0 then return ret
        ropHashDel FILE_NAME_HASH mark) t := by
  refine (once_ropZsetZrem _ _).first fun u hu => ?_
  rw [run_ropZsetZrem]
  rcases hst.trans hu with rfl | rfl
  · cases hranked : u.redis.ranked mark with
    | false =>
      rw [Redis.unrank_of_not_ranked hranked]
      exact Or.inl rfl
    | true =>
      refine (once_ropHashDel _ _).first (f := pure) fun z hz => ?_
      rw [run_ropHashDel]
      rcases hz with rfl | rfl
      · exact Or.inl rfl
      · exact Or.inr rfl
  · exact Or.inr rfl

theorem withstands_cancelShareFile (user md5 filename : CString) (s : Store) :
    (cancelShareFile user md5 filename).Withstands store Store.Emptied
      (fun _ y => Around (cancelShareFile user md5 filename) s y) s := by
  have haround : ∀ y, ((cancelShareFile user md5 filename).run store s).2.Emptied y →
      Around (cancelShareFile user md5 filename) s y := fun y hy => ⟨s, Or.inl rfl, hy⟩
  rw [run_cancelShareFile] at haround
  have hstatus : (Statement.updateSharedStatus 0 user md5 filename).apply s.tables =
      some (s.tables.setStatus 0 user md5 filename) := rfl
  refine withstands_begin fun t ht => withstands_mysqlQuery ht hstatus fun t ht => ?_
  refine withstands_processResultOne ht fun t ht => ?_
  cases hcount : s.tables.userFileCount shareCountUser with
  | none =>
    rw [hcount] at haround
    have hnone : (s.tables.setStatus 0 user md5 filename).userFileCount shareCountUser = none := hcount
    simp only [Query.result, hnone, Option.toList_none, List.map_nil, resultOne_nil]
    exact haround t ht
  | some n =>
    rw [hcount] at haround
    have hsome : (s.tables.setStatus 0 user md5 filename).userFileCount shareCountUser = some n := hcount
    simp only [Query.result, hsome, Option.toList_some, List.map_cons, List.map_nil,
      resultOne_cons, if_true, Value.atoi]
    refine (steady_lowerFileCount n shareCountUser).first ht fun t ht => ?_
    rw [run_lowerFileCount (s := ⟨s.tables.setStatus 0 user md5 filename, _, _⟩) hsome] at ht ⊢
    refine withstands_mysqlQuery ht rfl fun t ht => ?_
    exact (withstands_withdraw (fileid md5 filename) ht).mono fun _ y hy => haround y hy

/-- Checking a password changes nothing and does not ask Redis. -/
theorem run_checkUserPwd {s x : Store} (h : s.Emptied x) (foreign : ResultOne) (user pwd : CString) :
    (checkUserPwd foreign user pwd).run store x =
      (((checkUserPwd foreign user pwd).run store s).1, x) := by
  simp only [checkUserPwd, msqlConn, mysqlQuery, call_bind, done_bind, run_call, store_exec,
    Store.exec, Bool.not_true, Bool.false_eq_true, if_false, Statement.apply]
  rcases Nat.lt_or_ge (user.length + passwordQueryLength) 512 with hlen | hlen
  · rw [if_neg hlen.not_ge]
    simp only [processResultOne, call_bind, done_bind, run_call, store_exec, Store.exec, h.tables]
    generalize (if sqlPlain user then resultOne (Query.result s.tables (.userPassword user)) true
      else foreign).tmp = tmp
    rcases Nat.lt_or_ge tmp.length 256 with hlt | hge
    · simp [hlt.not_ge, ← h.tables]
    · simp [hge, ← h.tables]
  · simp [hlen]

theorem steady_checkUserPwd (foreign : ResultOne) (user pwd : CString) :
    (checkUserPwd foreign user pwd).Steady store Store.Emptied := by
  refine steady_msqlConn ?_
  change Steady store Store.Emptied (if 512 ≤ user.length + passwordQueryLength then _ else _)
  split
  · exact steady_done _
  · refine steady_offRedis rfl fun reply => ?_
    change Steady store Store.Emptied
      (if 256 ≤ (if sqlPlain user then reply else foreign).tmp.length then _ else _)
    rcases Nat.lt_or_ge (if sqlPlain user then reply else foreign).tmp.length 256 with hlt | hge
    · rw [if_neg hlt.not_ge]
      exact steady_done _
    · rw [if_pos hge]
      exact steady_done _

theorem withstands_login (foreign : ResultOne) (user pwd : CString) (token : Option CString)
    (s : Store) : (login foreign user pwd token).Withstands store Store.Emptied
      (fun _ y => Around (login foreign user pwd token) s y) s := by
  refine (steady_checkUserPwd foreign user pwd).first (Or.inl rfl) fun t ht => ?_
  rw [run_checkUserPwd (s := s) (Or.inl rfl)] at ht
  cases hret : ((checkUserPwd foreign user pwd).run store s).1 with
  | none =>
    have hrun : ((login foreign user pwd token).run store t).2 = t := by
      simp [login, run_bind, run_checkUserPwd ht, hret]
    exact ⟨t, ht, Or.inl hrun.symm⟩
  | some ret =>
    rcases eq_or_ne ret 0 with rfl | h0
    · have hrun : ∀ x, s.Emptied x → ((login foreign user pwd token).run store x).2 =
          ((setToken user token).run store x).2 := by
        intro x hx
        simp [login, run_bind, run_checkUserPwd hx, hret]
      cases token with
      | none => exact fun u hu => ⟨u, ht.trans hu, Or.inl (hrun u (ht.trans hu)).symm⟩
      | some token =>
        intro u hu z hz
        have hs := ht.trans (hu.trans hz)
        exact ⟨z, hs, Or.inl (hrun z hs).symm⟩
    · have hrun : ((login foreign user pwd token).run store t).2 = t := by
        simp [login, run_bind, run_checkUserPwd ht, hret, h0]
      simp only [if_neg h0]
      exact ⟨t, ht, Or.inl hrun.symm⟩

/-! ## Emptied between two writes -/

/-- The store a request may leave when Redis is emptied on the way. -/
def Amid {α : Type} (p : Handler α) (s y : Store) : Prop :=
  Around p s y ∨ y.redis.Bare ∧ y.tables = (p.run store s.flush).2.tables

theorem withstands_publish {α : Type} {Q : α → Store → Prop} {score : Int} {mark name : CString}
    {rest : Handler α} {s t : Store} (hst : s.Emptied t)
    (h : ∀ redis, redis = s.redis.publish score mark name ∨
        redis = Redis.empty.publish score mark name ∨ redis = Redis.empty.setName mark name →
      rest.Withstands store Store.Emptied Q ⟨s.tables, redis, s.storage⟩) :
    Withstands store Store.Emptied Q (do
      let _ ← ropZsetAdd FILE_PUBLIC_ZSET score mark
      let _ ← ropHashSet FILE_NAME_HASH mark name
      rest) t := by
  refine (once_ropZsetAdd _ _ _).first fun u hu => (once_ropHashSet _ _ _).first fun z hz => ?_
  rw [run_ropZsetAdd] at hz
  rw [run_ropHashSet]
  rcases hz with rfl | rfl
  · rcases hst.trans hu with rfl | rfl
    · exact h _ (Or.inl rfl)
    · exact h _ (Or.inr (Or.inl rfl))
  · rcases hst.trans hu with rfl | rfl
    · exact h _ (Or.inr (Or.inr rfl))
    · exact h _ (Or.inr (Or.inr rfl))

/-- What a handler that ends by publishing may leave. -/
theorem amid_of_publish {α : Type} {p : Handler α} {score : Int} {mark name : CString} {s x : Store}
    {tables : Tables} {storage : Finset CString} (hs : s.Emptied x)
    (hrun : ∀ z, x.Emptied z →
      (p.run store z).2 = ⟨tables, z.redis.publish score mark name, storage⟩)
    (redis : Redis) (hredis : redis = x.redis.publish score mark name ∨
      redis = Redis.empty.publish score mark name ∨ redis = Redis.empty.setName mark name) :
    Amid p s ⟨tables, redis, storage⟩ := by
  rcases hredis with rfl | rfl | rfl
  · exact Or.inl ⟨x, hs, Or.inl (hrun x (Or.inl rfl)).symm⟩
  · exact Or.inl ⟨x.flush, hs.trans (Or.inr rfl), Or.inl (hrun x.flush (Or.inr rfl)).symm⟩
  · refine Or.inr ⟨Redis.bare_setName Redis.bare_empty _ _, ?_⟩
    rw [← hs.flush_eq, hrun x.flush (Or.inr rfl)]

theorem withstands_shareFile (enc : Encoding) (now user md5 filename : CString) (s : Store) :
    (shareFile enc now user md5 filename).Withstands store Store.Emptied
      (fun _ y => Amid (shareFile enc now user md5 filename) s y) s := by
  refine withstands_begin fun t ht => (once_ropZsetExit _ _ _).first fun x hx => ?_
  rw [run_ropZsetExit]
  have hs := ht.trans hx
  rcases eq_or_ne (x.redis.presence (fileid md5 filename) enc) 0 with h0 | h0
  · rw [if_neg (by omega), if_neg (by omega)]
    refine withstands_processResultOne (Or.inl rfl) fun t ht => ?_
    simp only [Query.result, resultOne_null]
    cases hshared : x.tables.shared md5 filename with
    | true =>
      rw [Tables.shared] at hshared
      rw [hshared, if_pos rfl, if_pos rfl]
      refine (once_ropZsetAdd _ _ _).first fun z hz => ?_
      rw [run_ropZsetAdd]
      have hz' := ht.trans hz
      refine Or.inl ⟨z, hs.trans hz', Or.inl ?_⟩
      have hpresence : z.redis.presence (fileid md5 filename) enc = 0 := by
        rcases hz' with rfl | rfl
        · exact h0
        · exact Redis.presence_empty _ enc
      have hshared' : z.tables.shared md5 filename = true := by
        rw [hz'.tables]
        exact hshared
      simp [run_shareFile, hpresence, hshared']
    | false =>
      have hdo : ∀ z, x.Emptied z → ((shareFile enc now user md5 filename).run store z).2 =
          ⟨x.tables.share now user md5 filename,
            z.redis.publish 0 (fileid md5 filename) filename, x.storage⟩ := by
        rintro z (rfl | rfl)
        · simp [run_shareFile, h0, hshared]
        · simp [run_shareFile, hshared, Store.flush]
      rw [Tables.shared] at hshared
      rw [hshared, if_neg Bool.false_ne_true, if_neg (by simp)]
      refine withstands_mysqlQuery ht rfl fun t ht => withstands_mysqlQuery ht rfl fun t ht => ?_
      refine (steady_raiseFileCount shareCountUser).first ht fun t ht => ?_
      rw [run_raiseFileCount] at ht ⊢
      exact withstands_publish ht (amid_of_publish (x := x) hs hdo)
  · have hsame : ((shareFile enc now user md5 filename).run store x).2 = x := by
      rw [run_shareFile]
      split
      · rfl
      · rfl
    have hend : Amid (shareFile enc now user md5 filename) s x :=
      Or.inl ⟨x, hs, Or.inl hsame.symm⟩
    rcases eq_or_ne (x.redis.presence (fileid md5 filename) enc) 1 with h1 | h1
    · rw [if_pos h1]
      exact hend
    · rw [if_neg h1, if_pos h0]
      exact hend

/-- Redis as the `n`-th command finds it when none before has written to it. -/
def settled (plan : Nat → Bool) : Nat → Redis → Redis
  | 0, r => r
  | n + 1, r => if plan n then .empty else settled plan n r

theorem emptying_settled (plan : Nat → Bool) (n : Nat) (t : Tables) (r : Redis)
    (storage : Finset CString) :
    emptying plan n ⟨t, settled plan n r, storage⟩ = ⟨t, settled plan (n + 1) r, storage⟩ := by
  cases h : plan n with
  | false => simp [emptying, settled, h]
  | true => simp [emptying, settled, h, Store.flush]

theorem settled_cases (plan : Nat → Bool) (n : Nat) (r : Redis) :
    settled plan n r = .empty ∨ settled plan n r = r ∧ ∀ i < n, plan i = false := by
  induction n with
  | zero => exact Or.inr ⟨rfl, fun i hi => absurd hi (Nat.not_lt_zero i)⟩
  | succ n ih =>
    cases h : plan n with
    | true => exact Or.inl (by simp [settled, h])
    | false =>
      rw [settled, h, if_neg Bool.false_ne_true]
      refine ih.imp_right fun ⟨hr, hbefore⟩ => ⟨hr, fun i hi => ?_⟩
      rcases Nat.lt_succ_iff_lt_or_eq.mp hi with hi | rfl
      · exact hbefore i hi
      · exact h

theorem runAmid_pvShareFile (plan : Nat → Bool) (enc : Encoding) (md5 filename : CString) (s : Store) :
    (pvShareFile enc md5 filename).runAmid store (emptying plan) 0 s =
      match s.tables.shareFileList.find? (·.isFile md5 filename) with
      | none => (-1, ⟨s.tables, settled plan 4 s.redis, s.storage⟩)
      | some row =>
        runAmid store (emptying plan) 6
          (if (settled plan 6 s.redis).presence (fileid md5 filename) enc = 1 then
            ropZsetIncrement FILE_PUBLIC_ZSET (fileid md5 filename)
          else if (settled plan 6 s.redis).presence (fileid md5 filename) enc = 0 then do
            let _ ← ropZsetAdd FILE_PUBLIC_ZSET (row.pv + 1) (fileid md5 filename)
            let _ ← ropHashSet FILE_NAME_HASH (fileid md5 filename) filename
            return 0
          else return -1)
          ⟨s.tables.setSharePv (row.pv + 1) md5 filename, settled plan 6 s.redis, s.storage⟩ := by
  change runAmid store (emptying plan) 0 _ ⟨s.tables, settled plan 0 s.redis, s.storage⟩ = _
  cases hrow : s.tables.shareFileList.find? (·.isFile md5 filename) with
  | none =>
    simp only [pvShareFile, ropConnectdbNopwd, msqlConn, mysqlQuery, processResultOne, call_bind,
      done_bind, runAmid_call, emptying_settled, store_exec, Store.exec, Bool.not_true,
      Bool.false_eq_true, if_false, Statement.apply, Query.result, resultOne_first, hrow]
    rfl
  | some row =>
    simp only [pvShareFile, ropConnectdbNopwd, msqlConn, mysqlQuery, processResultOne, call_bind,
      done_bind, runAmid_call, emptying_settled, store_exec, Store.exec, Bool.not_true,
      Bool.false_eq_true, if_false, Statement.apply, Query.result, resultOne_first, hrow,
      (once_ropZsetExit _ _ _).runAmid_bind, run_ropZsetExit, Value.atoi]
    rfl

theorem withstands_pvPublish {enc : Encoding} {md5 filename : CString} {s x : Store} {row : ShareFile}
    (hrow : s.tables.shareFileList.find? (·.isFile md5 filename) = some row) (hs : s.Emptied x)
    (h0 : x.redis.presence (fileid md5 filename) enc = 0) :
    Withstands store Store.Emptied (fun _ y => Amid (pvShareFile enc md5 filename) s y)
      (do
        let _ ← ropZsetAdd FILE_PUBLIC_ZSET (row.pv + 1) (fileid md5 filename)
        let _ ← ropHashSet FILE_NAME_HASH (fileid md5 filename) filename
        return (0 : Int))
      ⟨s.tables.setSharePv (row.pv + 1) md5 filename, x.redis, s.storage⟩ := by
  have hdo : ∀ z, x.Emptied z → ((pvShareFile enc md5 filename).run store z).2 =
      ⟨s.tables.setSharePv (row.pv + 1) md5 filename,
        z.redis.publish (row.pv + 1) (fileid md5 filename) filename, s.storage⟩ := by
    intro z hz
    have hpresence : z.redis.presence (fileid md5 filename) enc = 0 := by
      rcases hz with rfl | rfl
      · exact h0
      · exact Redis.presence_empty _ enc
    rcases hs.trans hz with rfl | rfl
    · simp [run_pvShareFile, hrow, hpresence]
    · simp [run_pvShareFile, hrow, Store.flush]
  exact withstands_publish (Or.inl rfl) (amid_of_publish (x := x) hs hdo)

/-- A download of a shared file tests for the file with its sixth command and increments
the score with its seventh. -/
theorem amid_pvShareFile {plan : Nat → Bool} {enc : Encoding} {md5 filename : CString} {s : Store}
    (hwindow : s.redis.presence (fileid md5 filename) enc = 1 → (∀ i < 6, plan i = false) →
      plan 6 = false) :
    Amid (pvShareFile enc md5 filename) s
      ((pvShareFile enc md5 filename).runAmid store (emptying plan) 0 s).2 := by
  have hrun := run_pvShareFile enc md5 filename s
  rw [runAmid_pvShareFile]
  cases hrow : s.tables.shareFileList.find? (·.isFile md5 filename) with
  | none =>
    rw [hrow] at hrun
    refine Or.inl ⟨s, Or.inl rfl, ?_⟩
    rw [hrun]
    rcases settled_cases plan 4 s.redis with h4 | ⟨h4, -⟩
    · exact Or.inr (by rw [h4, Store.flush])
    · exact Or.inl (by rw [h4])
  | some row =>
    rw [hrow] at hrun
    simp only at hrun ⊢
    rcases settled_cases plan 6 s.redis with h6 | ⟨h6, hbefore⟩
    · rw [h6, Redis.presence_empty, if_neg (by decide), if_pos rfl]
      have hpublish := withstands_pvPublish (x := s.flush) hrow (Or.inr rfl)
        (Redis.presence_empty (fileid md5 filename) enc)
      exact hpublish.runAmid (emptied_emptying plan) 6
    rw [h6]
    rcases eq_or_ne (s.redis.presence (fileid md5 filename) enc) 1 with h1 | h1
    · rw [if_pos h1] at hrun ⊢
      rw [(once_ropZsetIncrement _ _).runAmid_eq, emptying, if_neg (by simp [hwindow h1 hbefore]),
        run_ropZsetIncrement]
      exact Or.inl ⟨s, Or.inl rfl, Or.inl hrun.symm⟩
    rw [if_neg h1] at hrun ⊢
    rcases eq_or_ne (s.redis.presence (fileid md5 filename) enc) 0 with h0 | h0
    · rw [if_pos h0]
      exact (withstands_pvPublish hrow (Or.inl rfl) h0).runAmid (emptied_emptying plan) 6
    · rw [if_neg h0] at hrun ⊢
      exact Or.inl ⟨s, Or.inl rfl, Or.inl hrun.symm⟩

/-! ## All requests -/

/-- Redis is not emptied between the test of a download and the increment it leads to. -/
def Request.spared (plan : Nat → Bool) : Request → Store → Prop
  | .pvShareFile enc md5 filename, s =>
    s.redis.presence (fileid md5 filename) enc = 1 → (∀ i < 6, plan i = false) → plan 6 = false
  | _, _ => True

theorem amid_of_withstands {p : Handler Int} {s : Store} (plan : Nat → Bool)
    (h : p.Withstands store Store.Emptied (fun _ y => Amid p s y) s) :
    Amid p s (p.runAmid store (emptying plan) 0 s).2 :=
  h.runAmid (emptied_emptying plan) 0

theorem amid_of_around {p : Handler Int} {s : Store} (plan : Nat → Bool)
    (h : p.Withstands store Store.Emptied (fun _ y => Around p s y) s) :
    Amid p s (p.runAmid store (emptying plan) 0 s).2 :=
  amid_of_withstands plan (h.mono fun _ _ => Or.inl)

theorem amid_serveAmid {plan : Nat → Bool} {r : Request} {s : Store} (hspared : r.spared plan s)
    (hranking : ∀ start count, r ≠ .getRankingFilelist start count) :
    Amid r.handler s (r.serveAmid plan s) := by
  cases r with
  | upload now user filename md5 size fileid url =>
    exact amid_of_around plan (around_of_steady (steady_upload now user filename md5 size fileid url) s)
  | dealMd5 now user md5 filename =>
    exact amid_of_around plan (around_of_steady (steady_dealMd5 now user md5 filename) s)
  | saveFile now user md5 filename =>
    exact amid_of_around plan (around_of_steady (steady_saveFile now user md5 filename) s)
  | shareFile enc now user md5 filename =>
    exact amid_of_withstands plan (withstands_shareFile enc now user md5 filename s)
  | cancelShareFile user md5 filename =>
    exact amid_of_around plan (withstands_cancelShareFile user md5 filename s)
  | delFile enc user md5 filename =>
    exact amid_of_around plan (withstands_delFile enc user md5 filename s)
  | pvFile user md5 filename =>
    exact amid_of_around plan (around_of_steady (steady_pvFile user md5 filename) s)
  | pvShareFile enc md5 filename => exact amid_pvShareFile hspared
  | getRankingFilelist start count => exact absurd rfl (hranking start count)
  | userRegister now user nickName pwd tel email =>
    exact amid_of_around plan
      (around_of_steady (steady_userRegister now user nickName pwd tel email) s)
  | login foreign user pwd token =>
    refine amid_of_around plan ((withstands_login foreign user pwd token s).bind ?_)
    rintro ret y ⟨x, hx, hy⟩
    refine ⟨x, hx, ?_⟩
    rw [Request.handler, run_bind]
    exact hy

/-! ## Runs -/

inductive Event where
  /-- a complete request, with Redis emptied before the commands of the plan -/
  | serve (plan : Nat → Bool) (r : Request)
  | flush

def Event.apply : Event → Store → Store
  | .serve plan r, s => r.serveAmid plan s
  | .flush, s => s.flush

def applyAll (s : Store) (events : List Event) : Store := events.foldl (fun s e => e.apply s) s

/-- Every request is admissible, and meets `ok`, in the state it starts in. -/
def Happens (ok : (Nat → Bool) → Request → Store → Prop) : Store → List Event → Prop
  | _, [] => True
  | s, .serve plan r :: rest =>
    r.admissible s ∧ ok plan r s ∧ Happens ok (r.serveAmid plan s) rest
  | s, .flush :: rest => Happens ok s.flush rest

theorem Happens.invariant {ok : (Nat → Bool) → Request → Store → Prop} {I : Store → Prop}
    (hserve : ∀ plan r s, I s → r.admissible s → ok plan r s → I (r.serveAmid plan s))
    (hflush : ∀ s, I s → I s.flush) {events : List Event} {s : Store} (hs : I s)
    (h : Happens ok s events) : I (applyAll s events) := by
  induction events generalizing s with
  | nil => exact hs
  | cons e rest ih =>
    cases e with
    | serve plan r =>
      obtain ⟨hadmissible, hok, hrest⟩ := h
      exact ih (hserve plan r s hs hadmissible hok) hrest
    | flush => exact ih (hflush s hs) h

/-- The rule for requests other than the ranking: an invariant that the undisturbed request
keeps and that asks nothing of Redis but what an emptied one has. -/
theorem invariant_serveAmid {plan : Nat → Bool} {r : Request} {ok I : Store → Prop}
    (hserve : ∀ s, I s → ok s → I (r.serve s)) (hflush : ∀ s, I s → I s.flush)
    (hbare : ∀ s t, I s → t.tables = s.tables → t.redis.Bare → I t) {s : Store} (hs : I s)
    (hok : ok s) (hemptied : (∃ n, plan n = true) → ok s.flush) (hspared : r.spared plan s)
    (hranking : ∀ start count, r ≠ .getRankingFilelist start count) : I (r.serveAmid plan s) := by
  rcases Classical.em (∃ n, plan n = true) with hplan | hstill
  · have hserved : I (r.serve s.flush) := hserve s.flush (hflush s hs) (hemptied hplan)
    rcases amid_serveAmid hspared hranking with ⟨x, hx, hy⟩ | ⟨hredis, htables⟩
    · have hx' : I (r.serve x) := by
        rcases hx with rfl | rfl
        · exact hserve x hs hok
        · exact hserved
      rcases hy with hy | hy
      · rw [hy]
        exact hx'
      · rw [hy]
        exact hflush _ hx'
    · exact hbare _ _ hserved htables hredis
  · rw [serveAmid_of_still (by simpa using hstill)]
    exact hserve s hs hok

end HfDfs
