import HfDfs.Cgi.UploadBody

/-!
# `upload_cgi.c`: the processes of an upload

`upload_to_dstorage` and `make_file_url` fork a child that is to become a
FastDFS tool, and read what the tool prints. After `fork` parent and child
run the same code. A child whose `execlp` fails falls through to the end
of the function, where the result is still 0, and goes on as a second
process of the request.

A function that forks gives the list of the processes that continue behind
it, each with its result and what it has in the array; `none` stands for
undefined behaviour. The id is trimmed as a `strncpy` does it that copies
byte by byte.
-/

namespace HfDfs

set_option autoImplicit false

/-- How the system calls of one such function turn out. `output` is what the first `read`
of the pipe gives, or `none` when it does not return: a child that failed to become the tool
keeps the pipe open as its standard output. -/
structure Spawn where
  pipe : Bool
  fork : Bool
  execlp : Bool
  output : Option CString
deriving DecidableEq, Repr

def Spawn.read (w : Spawn) : Option CString :=
  if w.execlp then w.output else w.output.map fun _ => []

inductive Side where
  | parent
  | child
deriving DecidableEq, Repr

/-- The common frame of the two functions: `array` is what the caller passed in, `finish`
what the parent makes of the output. -/
def Spawn.run (w : Spawn) (array : CString) (finish : CString → Option (Int × CString)) :
    List (Side × Option (Int × CString)) :=
  if !w.pipe then [(.parent, some (-1, array))]
  else if !w.fork then [(.parent, some (-1, array))]
  else
    (if w.execlp then [] else [(.child, some (0, array))]) ++
      (w.read.map fun out => (Side.parent, finish out)).toList

/-- An array of `size` zeros after a `read`, up to the first NUL. -/
def readBuf (size : Nat) (out : CString) : CString :=
  if out.length < size then out ++ [0] else out.take size

def readFileid (out : CString) : Option (Int × CString) :=
  let buf := readBuf 512 out
  if 0 ∈ buf then
    let fileid := trimSpace (buf.takeWhile (· ≠ 0))
    if fileid = [] then some (-1, fileid) else some (0, fileid)
  else none

def uploadToDstorage (w : Spawn) (fileid : CString) : List (Side × Option (Int × CString)) :=
  w.run fileid readFileid

def sourceIp : CString := bytes "source ip address: "

def newline : CString := [0x0a]

def fileUrl (host port fileid : CString) : CString :=
  bytes "http://" ++ host ++ bytes ":" ++ port ++ bytes "/" ++ fileid

/-- Neither search is checked, and the parts are put together with `strcat`. -/
def readUrl (port fileid fdfsFileUrl out : CString) : Option (Int × CString) :=
  let buf := readBuf 512 out
  match strstrBuf buf sourceIp with
  | .found n =>
    let q := buf.drop (n + sourceIp.length)
    match strstrBuf q newline with
    | .found k =>
      let url := fdfsFileUrl ++ fileUrl (q.take k) port fileid
      if k < 30 ∧ url.length < 512 then some (0, url) else none
    | _ => none
  | _ => none

def makeFileUrl (w : Spawn) (port fileid fdfsFileUrl : CString) :
    List (Side × Option (Int × CString)) :=
  w.run fdfsFileUrl (readUrl port fileid fdfsFileUrl)

/-- What the system does during one upload: one call of `upload_to_dstorage`, and one of
`make_file_url` in each process that gets there. `port` is configured. -/
structure UploadOutcome where
  upload : Spawn
  info : Side → Spawn
  port : CString

/-- `main` behind `upload_to_dstorage`, in one process: the calls of
`store_fileinfo_to_mysql` that come of it, with the file id and the url. The arrays of `main`
are empty at the beginning. -/
def finishUpload (w : Spawn) (port fileid : CString) : List (Option (CString × CString)) :=
  (makeFileUrl w port fileid []).flatMap fun (_, outcome) =>
    match outcome with
    | none => [none]
    | some (ret, url) => if ret < 0 then [] else [some (fileid, url)]

def UploadOutcome.stores (env : UploadOutcome) : List (Option (CString × CString)) :=
  (uploadToDstorage env.upload []).flatMap fun (side, outcome) =>
    match outcome with
    | none => [none]
    | some (ret, fileid) => if ret < 0 then [] else finishUpload (env.info side) env.port fileid

end HfDfs
