import HfDfs.Cgi.MyFiles
import HfDfs.Cgi.Login

/-!
# Bytes in, bytes out

What a program writes back: a response is put together with cJSON and
printed.
-/

namespace HfDfs

set_option autoImplicit false

open CJson Procedures

def contentType : CString := bytes "Content-type: text/html\r\n\r\n"

/-- `printf(out)`: a text with a directive in it has no arguments to print. -/
def printf (out : CString) : Option CString := if 0x25 ∈ out then none else some out

def returnStatus (statusNum : CString) : Option CString :=
  print (.object [(bytes "code", .string statusNum)])

def Response.write : Response → Option CString
  | .noData => some (bytes "No data from standard input.<p>\n")
  | .nothing => some []
  | .status code => do printf (← returnStatus code)
  | .count num code => do
    let out ← print (.object [(bytes "num", .string (decimal num)), (bytes "code", .string code)])
    printf out
  | .files out => some out

/-- `return_login_status` of `login_cgi.c` -/
def LoginAnswer.write : LoginAnswer → Option CString
  | .undefined => none
  | .noData => some (bytes "No data from standard input.<p>\n")
  | .nothing => some []
  | .status code token => do
    let out ← print (.object [(bytes "code", .string code), (bytes "token", .string token)])
    printf out

section Exchanges

variable {σ : Type} (M : Semantics Command Reply σ)

/-- One turn of an accept loop, from bytes to bytes; `M` is what the servers do. -/
def Program.exchange (program : Program) (env : Environment) (r : HttpRequest) (memory : Memory)
    (s : σ) : Option (CString × σ) := do
  let (_, handler) ← program.turn env r memory
  let response ← (handler.run M s).1
  let text ← response.write
  return (contentType ++ text, (handler.run M s).2)

def loginExchange (foreign : ResultOne) (token : Option CString) (r : HttpRequest) (s : σ) :
    Option (CString × σ) := do
  let handler := loginMain foreign token r
  let text ← (handler.run M s).1.write
  return (contentType ++ text, (handler.run M s).2)

end Exchanges

end HfDfs
