import HfDfs.Cgi.Upload
import HfDfs.Cgi.Md5
import HfDfs.Cgi.DealFile
import HfDfs.Cgi.DealShareFile
import HfDfs.Cgi.ShareFiles
import HfDfs.Cgi.Register
import HfDfs.Cgi.Login

/-!
# Requests and serial runs

A request is what a program does once its body is decoded. The clock, the
token, the encoding Redis uses and the name FastDFS gives an upload come
with the request. FastDFS draws names until it finds one that is free, so
an upload is admissible only with a name that storage does not hold. A
login is admissible when its behaviour is defined. A page of the ranking
that overruns the log line does so when all commands are issued.
-/

namespace HfDfs

set_option autoImplicit false

open Procedures Zlexcount

inductive Request where
  | upload (now user filename md5 : CString) (size : Int) (fileid fdfsFileUrl : CString)
  | dealMd5 (now user md5 filename : CString)
  | saveFile (now user md5 filename : CString)
  | shareFile (enc : Encoding) (now user md5 filename : CString)
  | cancelShareFile (user md5 filename : CString)
  | delFile (enc : Encoding) (user md5 filename : CString)
  | pvFile (user md5 filename : CString)
  | pvShareFile (enc : Encoding) (md5 filename : CString)
  | getRankingFilelist (start count : Int)
  | userRegister (now user nickName pwd tel email : CString)
  | login (foreign : ResultOne) (user pwd : CString) (token : Option CString)

namespace Request

def handler : Request → Handler Int
  | upload now user filename md5 size fileid fdfsFileUrl =>
    HfDfs.upload now user filename md5 size fileid fdfsFileUrl
  | dealMd5 now user md5 filename => HfDfs.dealMd5 now user md5 filename
  | saveFile now user md5 filename => HfDfs.saveFile now user md5 filename
  | shareFile enc now user md5 filename => HfDfs.shareFile enc now user md5 filename
  | cancelShareFile user md5 filename => HfDfs.cancelShareFile user md5 filename
  | delFile enc user md5 filename => HfDfs.delFile enc user md5 filename
  | pvFile user md5 filename => HfDfs.pvFile user md5 filename
  | pvShareFile enc md5 filename => HfDfs.pvShareFile enc md5 filename
  | getRankingFilelist start count => do
    let answer ← HfDfs.getRankingFilelist start count
    -- a page too long for the log ends the process, behind its last command
    return (answer.map Prod.fst).getD (-1)
  | userRegister now user nickName pwd tel email =>
    HfDfs.userRegister now user nickName pwd tel email
  | login foreign user pwd token => do
    let ret ← HfDfs.login foreign user pwd token
    return ret.getD (-1)

def admissible (s : Store) : Request → Prop
  | upload _ _ _ _ _ fileid _ => fileid ∉ s.storage
  | login foreign user pwd token => ((HfDfs.login foreign user pwd token).run store s).1 ≠ none
  | _ => True

instance (s : Store) : (r : Request) → Decidable (r.admissible s)
  | upload _ _ _ _ _ fileid _ => inferInstanceAs (Decidable (fileid ∉ s.storage))
  | login foreign user pwd token =>
    inferInstanceAs (Decidable (((HfDfs.login foreign user pwd token).run store s).1 ≠ none))
  | dealMd5 .. | saveFile .. | shareFile .. | cancelShareFile .. | delFile .. | pvFile ..
  | pvShareFile .. | getRankingFilelist .. | userRegister .. => .isTrue trivial

/-- The store after a complete, undisturbed run of the request. -/
def serve (r : Request) (s : Store) : Store := (r.handler.run store s).2

end Request

/-- The outcome of a request for a file the server has: nothing, or the user has it too. -/
def Gained (now user md5 filename : CString) (s t : Store) : Prop :=
  (s.tables.fileInfo md5 = none ∨ s.tables.holds user md5 filename = true) ∧ t = s ∨
    ∃ info, s.tables.fileInfo md5 = some info ∧ s.tables.holds user md5 filename = false ∧
      t = { s with tables := s.tables.gain now user md5 filename info }

theorem gained_dealMd5 (now user md5 filename : CString) (s : Store) :
    Gained now user md5 filename s ((Request.dealMd5 now user md5 filename).serve s) := by
  rw [Request.serve, Request.handler, run_dealMd5]
  cases hinfo : s.tables.fileInfo md5 with
  | none => exact Or.inl ⟨Or.inl hinfo, rfl⟩
  | some info =>
    cases hholds : s.tables.holds user md5 filename with
    | true => exact Or.inl ⟨Or.inr hholds, rfl⟩
    | false => exact Or.inr ⟨info, hinfo, hholds, rfl⟩

theorem gained_saveFile (now user md5 filename : CString) (s : Store) :
    Gained now user md5 filename s ((Request.saveFile now user md5 filename).serve s) := by
  rw [Request.serve, Request.handler, run_saveFile]
  cases hholds : s.tables.holds user md5 filename with
  | true => exact Or.inl ⟨Or.inr hholds, rfl⟩
  | false =>
    cases hinfo : s.tables.fileInfo md5 with
    | none => exact Or.inl ⟨Or.inl hinfo, rfl⟩
    | some info => exact Or.inr ⟨info, hinfo, hholds, rfl⟩

/-! ## Serial runs -/

def serveAll (s : Store) (requests : List Request) : Store :=
  requests.foldl (fun s r => r.serve s) s

/-- Every request is admissible, and meets `ok`, in the state it starts in. -/
def Runs (ok : Request → Store → Prop) : Store → List Request → Prop
  | _, [] => True
  | s, r :: rest => r.admissible s ∧ ok r s ∧ Runs ok (r.serve s) rest

/-- The rule for serial runs: what every single request keeps holds at the end. -/
theorem Runs.invariant {ok : Request → Store → Prop} {I : Store → Prop}
    (hstep : ∀ (r : Request) (s : Store), I s → r.admissible s → ok r s → I (r.serve s))
    {requests : List Request} {s : Store} (hs : I s) (h : Runs ok s requests) :
    I (serveAll s requests) := by
  induction requests generalizing s with
  | nil => exact hs
  | cons r rest ih =>
    obtain ⟨hadmissible, hok, hrest⟩ := h
    exact ih (hstep r s hs hadmissible hok) hrest

/-- A run under one condition is a run under another that the first one's invariant gives. -/
theorem Runs.weaken {ok ok' : Request → Store → Prop} {I : Store → Prop} {requests : List Request}
    {s : Store} (h : Runs ok s requests)
    (hstep : ∀ (r : Request) (s : Store), I s → r.admissible s → ok r s → I (r.serve s))
    (hok : ∀ (r : Request) (s : Store), I s → ok r s → ok' r s) (hs : I s) :
    Runs ok' s requests := by
  induction requests generalizing s with
  | nil => exact trivial
  | cons r rest ih =>
    obtain ⟨hadmissible, hr, hrest⟩ := h
    exact ⟨hadmissible, hok r s hs hr, ih hrest (hstep r s hs hadmissible hr)⟩

end HfDfs
