import HfDfs.Library.Events
import HfDfs.StatementTexts

/-!
# How long a token lives

`SETEX` gives a key a lifetime in seconds, and Redis removes the key when it
is over. The store is kept with the time at which each key is removed, and
time passes between two commands.
-/

namespace HfDfs

set_option autoImplicit false

open Procedures

structure Timed where
  store : Store
  /-- when the key is removed, for a key with a lifetime -/
  deadline : CString → Option Nat
  now : Nat

/-- The lifetimes behind a command. -/
def Timed.deadlines (t : Timed) : Command → CString → Option Nat
  | .redisCommand (.setex key seconds _) => Function.update t.deadline key (some (t.now + seconds))
  | .redisCommand (.del key) => Function.update t.deadline key none
  | _ => t.deadline

@[simps] def timed : Semantics Command Reply Timed where
  exec c t := ((store.exec c t.store).1, ⟨(store.exec c t.store).2, t.deadlines c, t.now⟩)
  fallible := Command.fallible
  failed := Command.failed

theorem timed_extends : timed.Extends store Timed.store where
  reply _ _ := rfl
  state _ _ := rfl

/-- The lifetime of the key is over at the given time. -/
def Timed.ended (t : Timed) (key : CString) (time : Nat) : Bool := (t.deadline key).any (· ≤ time)

def Timed.pass (seconds : Nat) (t : Timed) : Timed where
  store := { t.store with
    redis := fun key => if t.ended key (t.now + seconds) then none else t.store.redis key }
  deadline key := if t.ended key (t.now + seconds) then none else t.deadline key
  now := t.now + seconds

theorem Timed.ended_mono {t : Timed} {key : CString} {time later : Nat}
    (h : t.ended key time = true) (hle : time ≤ later) : t.ended key later = true := by
  rw [ended] at h ⊢
  cases hd : t.deadline key with
  | none => simp [hd] at h
  | some d =>
    rw [hd, Option.any_some, decide_eq_true_eq] at h
    rw [Option.any_some, decide_eq_true_eq]
    exact h.trans hle

theorem Timed.redis_pass (t : Timed) (seconds : Nat) (key : CString) :
    (t.pass seconds).store.redis key =
      if t.ended key (t.now + seconds) then none else t.store.redis key := rfl

theorem Timed.deadline_pass (t : Timed) (seconds : Nat) (key : CString) :
    (t.pass seconds).deadline key =
      if t.ended key (t.now + seconds) then none else t.deadline key := rfl

/-- The server's reading of a text, which does not touch Redis. -/
def Server.timed (server : Server) : Deviation Command Reply Timed where
  undefined := server.deviation.undefined
  foreign := server.deviation.foreign
  exec c t := ((server.deviation.exec c t.store).1,
    { t with store := (server.deviation.exec c t.store).2 })

/-- The servers, as they are sent texts, with a clock. -/
def timedTexts (server : Server) : Semantics Command Reply (Option Timed) :=
  timed.deviate server.timed

theorem timed_spares_iff (server : Server) (c : Command) :
    server.timed.Spares c ↔ c.InOrder := spares_iff server c

theorem run_timedTexts (server : Server) {α : Type} {handler : Handler α} {t : Timed}
    (h : handler.IssuesFrom timed Command.InOrder t) :
    handler.run (timedTexts server) (some t) =
      ((handler.run timed t).1, some (handler.run timed t).2) :=
  Procedure.run_deviate (h.mono fun c => (timed_spares_iff server c).mpr)

/-- A command that gives no key a lifetime and takes none away. -/
def Command.timeless : Command → Bool
  | .redisCommand (.setex _ _ _) | .redisCommand (.del _) => false
  | _ => true

theorem deadlines_of_timeless {c : Command} (h : c.timeless = true) (t : Timed) :
    t.deadlines c = t.deadline := by
  rw [Timed.deadlines.eq_def]
  split
  · cases h
  · cases h
  · rfl

theorem run_timed_of_timeless {α : Type} {handler : Handler α}
    (h : handler.Issues fun c => c.timeless = true) (t : Timed) :
    handler.run timed t =
      ((handler.run store t.store).1, { t with store := (handler.run store t.store).2 }) := by
  induction handler generalizing t with
  | done a => rfl
  | call c next ih =>
    rw [Procedure.run_call, Procedure.run_call, timed_exec, deadlines_of_timeless h.1]
    exact ih _ (h.2 _) _

end HfDfs
