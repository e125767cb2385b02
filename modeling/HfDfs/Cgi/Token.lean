import HfDfs.Base64
import HfDfs.Decimal
import HfDfs.Des.Messages
import HfDfs.Md5.Context
import HfDfs.CJson.Printer

/-!
# `login_cgi.c`: the text of a token

`set_token` appends four random numbers to the name, encrypts the text,
writes the ciphertext in base64 and takes the digest of that, each step into
an array of its own.
-/

namespace HfDfs

set_option autoImplicit false

open Execution Execution.Code Memory

def hexPair (c : UInt8) : CString := [CJson.hexChar (c.toNat / 16), CJson.hexChar (c.toNat % 16)]

def strcat (token : List UInt8) (str : CString) : Code (List UInt8) := do
  let len ← strlen token 0
  writeAll token len (str ++ [0])

/-- `set_token` from the numbers on: `none` when `DesEnc` fails. The locals of `DesEnc` and the
context of MD5 hold anything. -/
def tokenText {width : Des.Width} (malloc : Bool) (locals : Des.Locals width) (md5 : Md5.Ctx)
    (user : CString) (randNum : List Int) : Code (Option CString) := do
  let tmp ← writeAll (List.replicate 1024 0) 0 (user ++ randNum.flatMap decimal ++ [0])
  let text ← string tmp 0
  match ← Des.desEncStores malloc locals text with
  | .error _ => return none
  | .ok (encLen, out) =>
    let encTmp ← writeAll (List.replicate 2048 0) 0 out
    let base64 ← Base64.base64Encode encTmp encLen (List.replicate 3072 0)
    let len ← strlen base64 0
    let md5 ← Md5.md5Update (Md5.md5Init md5) base64 (UInt32.ofNat len)
    let (decrypt, _) ← Md5.md5Final md5
    let token ← decrypt.foldlM (fun token c => strcat token (hexPair c)) (List.replicate 128 0)
    return some (← string token 0)

end HfDfs
