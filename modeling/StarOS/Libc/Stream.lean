import StarOS.Libc.FileRead

/-!
# Buffered streams

A stream reads ahead of the program: its descriptor is further along than the program is by what is
in the buffer, and a byte that was pushed back puts the program one more behind.

The stream works on any descriptor that can be read and sought. Lengths and positions in the buffer
are numbers; an offset is a machine word, and a difference of two of them wraps.

## Main definitions

* `Stdio.Calls` — the calls a stream makes on the descriptor underneath
* `Stdio.Stream` with `refill`, `take`, `fread`, `fgetc`, `ungetc`, `fgets`, `fseeko`, `ftello`
-/

namespace StarOS

namespace Stdio

/-- How much a stream reads ahead. -/
def bufferSize : ℕ := 4096

/-- C's end-of-file sentinel. -/
def eof : ℤ := -1

/-- The calls a stream makes on the descriptor underneath. -/
structure Calls (σ : Type) where
  read : ℕ → StateM σ (ℤ × List UInt8)
  seek : BitVec 64 → ℤ → StateM σ ℤ

/-- A stream that is open. -/
structure Stream where
  /-- End of file has been reached, and an operation has failed. -/
  eof : Bool
  error : Bool
  /-- One byte pushed back. -/
  ungot : Option UInt8
  /-- What is in the buffer from `start` to `stop` was read and not yet handed to the program. -/
  start : ℕ
  stop : ℕ
  buf : List UInt8

/-- A stream over a descriptor. -/
def Stream.over : Stream := ⟨false, false, none, 0, 0, .replicate bufferSize 0⟩

/-- The descriptor is further along than the program by this much. -/
def Stream.buffered (s : Stream) : ℕ := s.stop - s.start + if s.ungot.isSome then 1 else 0

variable {σ : Type} (io : Calls σ)

/-- Fill the buffer from the descriptor. Answers how many bytes are now available. -/
def refill : StateM (Stream × σ) ℕ := fun (s, d) =>
  if s.start < s.stop then (s.stop - s.start, (s, d))
  else
    let ((got, bytes), d) := io.read bufferSize d
    if got < 0 then (0, ({ s with start := 0, stop := 0, error := true }, d))
    else if got = 0 then (0, ({ s with start := 0, stop := 0, eof := true }, d))
    else
      (got.toNat,
        ({ s with start := 0, stop := got.toNat, buf := bytes ++ s.buf.drop bytes.length }, d))

/-- Take up to `n` bytes out of the buffer and the descriptor. -/
def takeLoop (n : ℕ) : Stream × σ → List UInt8 × Stream × σ := fun s =>
  if _hn : n = 0 then ([], s)
  else
    let (available, s, d) := refill io s
    if _hend : available = 0 then ([], s, d)
    else
      let k := min available n
      let bytes := (s.buf.drop s.start).take k
      let (more, s) := takeLoop (n - k) ({ s with start := s.start + k }, d)
      (bytes ++ more, s)
termination_by n
decreasing_by omega

/-- Take up to `n` bytes out of the stream. A pushed-back byte comes first and is not in the
buffer. -/
def take (n : ℕ) : StateM (Stream × σ) (List UInt8) := fun (s, d) =>
  match s.ungot, n with
  | some b, n + 1 =>
    let (bytes, s) := takeLoop io n ({ s with ungot := none }, d)
    (b :: bytes, s)
  | _, n => takeLoop io n (s, d)

/-- Read whole items. Answers their number, with all the bytes that were moved. -/
def fread (size count : ℕ) : StateM (Stream × σ) (ℕ × List UInt8) := do
  if size = 0 ∨ count = 0 then return (0, [])
  -- the number of bytes overflows
  if size * count ≥ 2 ^ 64 then return (0, [])
  let bytes ← take io (size * count)
  return (bytes.length / size, bytes)

def fgetc : StateM (Stream × σ) ℤ := do
  match ← take io 1 with
  | [b] => return b.toNat
  | _ => return eof

/-- Push a byte back. There is room for one. -/
def ungetc (c : ℤ) : StateM (Stream × σ) ℤ := fun (s, d) =>
  if c = eof then (eof, (s, d))
  else if s.ungot.isSome then (eof, (s, d))
  else (c % 256, ({ s with ungot := some (.ofNat (c % 256).toNat), eof := false }, d))

/-- At most `room` bytes, up to a newline. -/
def fgetsLoop : ℕ → StateM (Stream × σ) (List UInt8)
  | 0 => return []
  | room + 1 => do
    match ← take io 1 with
    | [] => return []
    | b :: _ => if b = 10 then return [b] else return b :: (← fgetsLoop room)

/-- Read a line into a buffer of `size` bytes, one of them for the NUL. -/
def fgets (size : ℤ) : StateM (Stream × σ) (Option (List UInt8)) := do
  if size ≤ 0 then return none
  let bytes ← fgetsLoop io (size.toNat - 1)
  if bytes = [] then return none else return some bytes

/-- Move the stream. A seek from where the program is must account for what is in the buffer. -/
def fseeko (offset : BitVec 64) (whence : ℤ) : StateM (Stream × σ) ℤ := fun (s, d) =>
  let adjusted := if whence = 1 then offset - .ofNat 64 s.buffered else offset
  let (position, d) := io.seek adjusted whence d
  if position < 0 then (-1, (s, d))
  else (position, ({ s with start := 0, stop := 0, ungot := none, eof := false }, d))

def fseek (offset : BitVec 64) (whence : ℤ) : StateM (Stream × σ) ℤ := do
  if (← fseeko io offset whence) < 0 then return -1 else return 0

/-- Where the program is. -/
def ftello : StateM (Stream × σ) ℤ := fun (s, d) =>
  let (position, d) := io.seek 0 1 d
  if position < 0 then (-1, (s, d)) else (position - s.buffered, (s, d))

def rewind : StateM (Stream × σ) Unit := do
  let _ ← fseeko io 0 0
  modify fun (s, d) => ({ s with eof := false, error := false }, d)

end Stdio

end StarOS
