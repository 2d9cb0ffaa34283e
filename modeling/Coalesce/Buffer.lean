import Coalesce.Library.CallResult
import Coalesce.Library.ByteNumber

/-! The growable byte buffer of buffer.c. Sizes are `size_t`: every sum that the
C code forms wraps modulo `2 ^ 64`, and so does the doubling loop of
`buf_reserve`. Buffer pointers are never NULL here, so the checks on them are
left out; source pointers of the writers may be NULL. -/

namespace Coalesce.Buffer
open Library.CallResult Library.ByteNumber

def SIZE_MAX_SUCC : Nat := 2 ^ 64
def BUF_MIN_CAP : Nat := 64

/-- Answers of the allocator to the coming calls. Once they are used up every
call succeeds. -/
abbrev Heap := List Bool

def Heap.alloc : Heap → Bool × Heap
  | [] => (true, [])
  | answer :: rest => (answer, rest)

/-- `ssh_buf_t`. `data` is the allocated block, `cap` bytes long. -/
structure SshBuf where
  data : List UInt8
  rpos : Nat
  len : Nat
  cap : Nat
  deriving DecidableEq, Repr

structure BufState where
  heap : Heap
  buf : SshBuf
  deriving DecidableEq, Repr

abbrev BufCall := Call BufState

/-- `malloc` or `realloc`: the answer of the allocator to one request. -/
def alloc : BufCall Unit := do
  let s ← get
  let (granted, heap) := s.heap.alloc
  set { s with heap := heap }
  failIf (!granted)

/-- `realloc` aside, the one place where a block comes from. What it holds at first is
never read. -/
def bufInit (initialCap : Nat) : BufCall Unit := do
  let cap := if initialCap < BUF_MIN_CAP then BUF_MIN_CAP else initialCap
  modify fun s => { s with buf := { s.buf with data := [] } }
  alloc
  modify fun s => { s with buf := { data := List.replicate cap 0, rpos := 0, len := 0, cap := cap } }

def bufReset (buf : SshBuf) : SshBuf := { buf with len := 0, rpos := 0 }

/-- `while (new_cap < need) new_cap *= 2;`. After 64 doublings the capacity has
wrapped to zero, from where the loop never exits. -/
def doubleCap (need : Nat) : Nat → Nat → Option Nat
  | 0, newCap => if newCap < need then none else some newCap
  | fuel + 1, newCap =>
      if newCap < need then doubleCap need fuel (newCap * 2 % SIZE_MAX_SUCC) else some newCap

/-- `realloc` keeps the old block and appends fresh bytes. -/
def grow (data : List UInt8) (newCap : Nat) : List UInt8 :=
  data.take newCap ++ List.replicate (newCap - data.length) 0

def bufReserve (additional : Nat) : BufCall Unit := do
  let s ← get
  let need := (s.buf.len + additional) % SIZE_MAX_SUCC
  if need ≤ s.buf.cap then
    pure ()
  else
    let newCap := if s.buf.cap ≠ 0 then s.buf.cap * 2 % SIZE_MAX_SUCC else BUF_MIN_CAP
    match doubleCap need 64 newCap with
    | none => throw .hang
    | some newCap =>
      alloc
      modify fun t => { t with buf := { t.buf with data := grow t.buf.data newCap, cap := newCap } }

def bufReadable (buf : SshBuf) : Nat := if buf.rpos ≥ buf.len then 0 else buf.len - buf.rpos

def bufConsume (n : Nat) : BufCall Unit := do
  let s ← get
  failIf ((s.buf.rpos + n) % SIZE_MAX_SUCC > s.buf.len)
  set { s with buf := { s.buf with rpos := (s.buf.rpos + n) % SIZE_MAX_SUCC } }

/-- `memcpy` into the block at `at`. -/
def blit (data : List UInt8) (at_ : Nat) (bytes : List UInt8) : List UInt8 :=
  data.take at_ ++ bytes ++ data.drop (at_ + bytes.length)

/-- Stores bytes behind the written part and moves `len` over them. -/
def store (bytes : List UInt8) : BufCall Unit :=
  modify fun s => { s with buf := { s.buf with
    data := blit s.buf.data s.buf.len bytes, len := (s.buf.len + bytes.length) % SIZE_MAX_SUCC } }

def bufPutU8 (val : UInt8) : BufCall Unit := do
  bufReserve 1
  store [val]

/-- The four bytes `(val >> 24) & 0xFF, ..., val & 0xFF`. -/
def be32 (val : UInt32) : List UInt8 :=
  [(val >>> 24).toUInt8, (val >>> 16).toUInt8, (val >>> 8).toUInt8, val.toUInt8]

def bufPutU32 (val : UInt32) : BufCall Unit := do
  bufReserve 4
  store (be32 val)

/-- `(val >> (i * 8)) & 0xFF` for `i` from seven down. -/
def be64 (val : UInt64) : List UInt8 := (List.range 8).reverse.map fun i => (val >>> UInt64.ofNat (i * 8)).toUInt8

def bufPutU64 (val : UInt64) : BufCall Unit := do
  bufReserve 8
  store (be64 val)

def bufPutBool (val : Bool) : BufCall Unit := bufPutU8 (if val then 1 else 0)

/-- `src` is NULL or points to the bytes given. -/
def bufPutRaw (src : Option (List UInt8)) (n : Nat) : BufCall Unit := do
  failIf (src.isNone && n > 0)
  if n = 0 then
    pure ()
  else
    bufReserve n
    store ((src.getD []).take n)

def bufPutString (str : Option (List UInt8)) (len : Nat) : BufCall Unit := do
  bufPutU32 (UInt32.ofNat len)
  if len > 0 then bufPutRaw str len else pure ()

/-- The characters of a C string: the bytes before its first NUL. -/
def cString (str : List UInt8) : List UInt8 := str.takeWhile (· ≠ 0)

def bufPutCstring (str : Option (List UInt8)) : BufCall Unit :=
  match str with
  | none => bufPutString (some []) 0
  | some str => bufPutString (some str) (cString str).length

/-- `bignum` is NULL or points to the magnitude, first byte first. -/
def bufPutMpint (bignum : Option (List UInt8)) (len : Nat) : BufCall Unit :=
  if bignum.isNone || len = 0 then bufPutU32 0
  else
    let significant := ((bignum.getD []).take len).dropWhile (· = 0)
    if significant = [] then bufPutU32 0
    else do
      let actualLen := significant.length
      let needPad := significant.headD 0 &&& 0x80 ≠ 0
      bufPutU32 (UInt32.ofNat (actualLen + if needPad then 1 else 0))
      if needPad then bufPutU8 0x00 else pure ()
      bufPutRaw (some significant) actualLen

/-- The byte at a position of the block. -/
def byteAt (buf : SshBuf) (index : Nat) : UInt8 := buf.data.getD index 0

def advance (count : Nat) : BufCall Unit :=
  modify fun s => { s with buf := { s.buf with rpos := (s.buf.rpos + count) % SIZE_MAX_SUCC } }

def bufGetU8 : BufCall UInt8 := do
  let s ← get
  failIf (bufReadable s.buf < 1)
  advance 1
  pure (byteAt s.buf s.buf.rpos)

/-- `b0 << 24 | b1 << 16 | b2 << 8 | b3`. -/
def ofBe32 (b0 b1 b2 b3 : UInt8) : UInt32 :=
  (b0.toUInt32 <<< 24) ||| (b1.toUInt32 <<< 16) ||| (b2.toUInt32 <<< 8) ||| b3.toUInt32

def bufGetU32 : BufCall UInt32 := do
  let s ← get
  failIf (bufReadable s.buf < 4)
  advance 4
  let byte := fun k => byteAt s.buf (s.buf.rpos + k)
  pure (ofBe32 (byte 0) (byte 1) (byte 2) (byte 3))

/-- `res = (res << 8) | byte`, eight times from zero. -/
def ofBe64 (byte : Nat → UInt8) : UInt64 :=
  (List.range 8).foldl (fun res i => (res <<< 8) ||| (byte i).toUInt64) 0

def bufGetU64 : BufCall UInt64 := do
  let s ← get
  failIf (bufReadable s.buf < 8)
  advance 8
  pure (ofBe64 fun i => byteAt s.buf (s.buf.rpos + i))

def bufGetBool : BufCall Bool := do
  let b ← bufGetU8
  pure (b ≠ 0)

def bufGetRaw (n : Nat) : BufCall (List UInt8) := do
  let s ← get
  failIf (bufReadable s.buf < n)
  advance n
  pure ((s.buf.data.drop s.buf.rpos).take n)

/-- The bytes of the fresh block, its closing NUL left out. -/
def bufGetString : BufCall (List UInt8) := do
  let len ← bufGetU32
  let s ← get
  failIf (bufReadable s.buf < len.toNat)
  alloc
  if len.toNat > 0 then advance len.toNat
  pure ((s.buf.data.drop s.buf.rpos).take len.toNat)

/-- A failed read shows as NULL, not as a status. -/
def bufGetCstring : BufCall (Option (List UInt8)) := fun s =>
  match bufGetString s with
  | .ok str t => .ok (some str) t
  | .error .fail t => .ok none t
  | .error .hang t => .error .hang t

def bufGetMpint : BufCall (List UInt8) := bufGetString

end Coalesce.Buffer
