import Coalesce.Session

/-! The exchange of identification strings, from session.c. -/

namespace Coalesce.Ident
open Library.CallResult Net Session

def CR : UInt8 := 13
def SP : UInt8 := 32

/-- The characters of a literal, its closing NUL left out. -/
def literal (text : String) : List UInt8 := text.toList.map fun c => UInt8.ofNat c.toNat

def PROTOVERSION : String := "2.0"
def SOFTWARE_VER : String := "coalesce_0.0.1"
def COMMENTS : String := ""
def IDENT_STRING : List UInt8 := literal ("SSH-" ++ PROTOVERSION ++ "-" ++ SOFTWARE_VER ++ COMMENTS ++ "\r\n")

inductive SshRole where
  | client
  | server
  deriving DecidableEq, Repr

/-- The length without the line end, from `len` down. -/
def identStripCrlf (line : List UInt8) : Nat → Nat
  | 0 => 0
  | len + 1 => if line.getD len 0 = LF ∨ line.getD len 0 = CR then identStripCrlf line len else len + 1

/-- `memcmp(line + at, text, strlen(text)) == 0`; `strncmp` says the same of a text without NUL. -/
def charsAt (line : List UInt8) (at_ : Nat) (text : String) : Bool :=
  (line.drop at_).take (literal text).length == literal text

/-- Walks over the software version; `none` is the return on a bad character. -/
def versionEnd (line : List UInt8) (len end_ : Nat) : Option Nat :=
  if end_ < len ∧ line.getD end_ 0 ≠ SP then
    let c := line.getD end_ 0
    if c < 0x21 ∨ c > 0x7E ∨ c = 45 then none else versionEnd line len (end_ + 1)
  else some end_
termination_by len - end_

/-- The loop over the comments. -/
def commentsPrintable (line : List UInt8) (len i : Nat) : Bool :=
  if i < len then
    let c := line.getD i 0
    if c < 0x20 ∨ c > 0x7E then false else commentsPrintable line len (i + 1)
  else true
termination_by len - i

/-- Software version and comments, from `pos` on. -/
def softwareCheck (line : List UInt8) (len pos : Nat) : Int :=
  match versionEnd line len pos with
  | none => -1
  | some end_ => if commentsPrintable line len end_ then 0 else -1

/-- `vlen`: 2.0, or 1.99, which is treated as 2.0. -/
def versionLength (line : List UInt8) (len : Nat) : Option Nat :=
  if charsAt line 4 "2.0" then some 3
  else if len ≥ 9 ∧ charsAt line 4 "1.99" then some 4
  else none

def sessionIdentCheck (line : List UInt8) (len : Nat) : Int :=
  let len := identStripCrlf line len
  if len = 0 ∨ len > SSH_IDENT_MAX - 2 then -1
  else if len < 8 ∨ charsAt line 0 "SSH-" = false then -1
  else
    match versionLength line len with
    | none => -1
    | some vlen =>
      let pos := 4 + vlen
      if pos ≥ len ∨ line.getD pos 0 ≠ 45 then -1
      else if pos + 1 ≥ len then -1
      else softwareCheck line len (pos + 1)

/-- `memcpy(dst, line, len); dst[len] = '\0'; *dst_len = len;` -/
def storeIdent (old : SshIdent) (line : List UInt8) (len : Nat) : SshIdent :=
  { chars := Vector.ofFn fun i =>
      if i.val < len then line.getD i.val 0 else if i.val = len then 0 else old.chars.get i
    len := len }

/-- The slots of an exchange: ours and that of the peer. -/
def storeOwn (role : SshRole) (s : SshSession) (line : List UInt8) (len : Nat) : SshSession :=
  match role with
  | .client => { s with vC := storeIdent s.vC line len }
  | .server => { s with vS := storeIdent s.vS line len }

def storePeer (role : SshRole) (s : SshSession) (line : List UInt8) (len : Nat) : SshSession :=
  match role with
  | .client => { s with vS := storeIdent s.vS line len }
  | .server => { s with vC := storeIdent s.vC line len }

/-- The reading loop, with so many attempts left. -/
def readIdent (role : SshRole) : Nat → Call SshSession Unit
  | 0 => throw .fail
  | attempts + 1 => do
    let s ← get
    let result := netReadLine s.sock (SSH_IDENT_MAX + 2)
    set { s with sock := result.2.2 }
    let line := result.2.1
    let n := result.1.toNat
    failIf (result.1 ≤ 0)
    failIf (line.getD (n - 1) 0 ≠ LF)
    if charsAt line 0 "SSH-" = false then readIdent role attempts
    else
      failIf (sessionIdentCheck line n ≠ 0)
      modify fun s => storePeer role s line (identStripCrlf line n)

def sessionExchangeIdent (role : SshRole) : Call SshSession Unit := do
  let s ← get
  let result := netWriteFull s.sock IDENT_STRING
  set { s with sock := result.2 }
  failIf (result.1 ≠ IDENT_STRING.length)
  let ownLen := identStripCrlf IDENT_STRING IDENT_STRING.length
  failIf (ownLen > SSH_IDENT_MAX - 2)
  modify fun s => storeOwn role s IDENT_STRING ownLen
  readIdent role 50

end Coalesce.Ident
