import ChatServer.Common

/-!
# The user database

`auth.c`: the loaded records and the password check. The platform's SHA-256
is a parameter.
-/

namespace ChatServer

open CStr

/-- What the program calls outside its own sources. -/
structure Platform where
  sha256 : Bytes → Bytes
  localtimeR : Int → Option Tm

structure UserRecord where
  username : Bytes
  passwordHash : Bytes
  isAdmin : Bool
  deriving DecidableEq

abbrev AuthDb := List UserRecord

def hexDigit (d : UInt8) : UInt8 := if d < 10 then 48 + d else 87 + d

def hexString (digest : Bytes) : Bytes := digest.flatMap fun b => [hexDigit (b / 16), hexDigit (b % 16)]

/-- `auth_hash_password`; `evp` says whether the digest calls succeeded. -/
def authHashPassword (P : Platform) (evp : Bool) (password : Bytes) : Option Bytes :=
  if evp then some (hexString (P.sha256 password)) else none

def authVerify (P : Platform) (evp : Bool) (db : AuthDb) (username password : Bytes) : ChatStatus :=
  match authHashPassword P evp password with
  | none => .err
  | some computed =>
    match db.find? fun cur => cur.username == username with
    | none => .errAuth
    | some cur => if cur.passwordHash == computed then .ok else .errAuth

def authIsAdmin (db : AuthDb) (username : Bytes) : Bool :=
  match db.find? fun cur => cur.username == username with
  | none => false
  | some cur => cur.isAdmin

end ChatServer
