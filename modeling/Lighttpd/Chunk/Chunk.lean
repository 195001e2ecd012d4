import Lighttpd.Base.Buffer

/-!
# Chunks and their bytes (`chunk.h`, `chunk.c`)

A chunk is a piece of memory or a range of a file, of which `offset` bytes have been consumed. The system calls of
this part of the program see a `World`: the contents of the files by name and the offset of every open descriptor.
Names and descriptors are never reused in a `World`, so closing and unlinking leave no trace in it.

The bytes of a chunk (`Chunk.bytes`) are what is still to be sent of it; the bytes of a file chunk are read from the
`World`.
-/

namespace Lighttpd

abbrev Path := Bytes
abbrev Fd := Nat

/-- What the system calls on files see: the contents of the files and the offsets of the open descriptors. -/
structure World where
  files : Path → Option Bytes
  fdpos : Fd → Option Nat

/-- The contents of a file; a missing file has none. -/
def World.content (w : World) (name : Path) : Bytes := (w.files name).getD []

def writeAt (old : Bytes) (pos : Nat) (data : Bytes) : Bytes :=
  old.take pos ++ List.replicate (pos - old.length) 0 ++ data ++ old.drop (pos + data.length)

/-- A successful `write` of `data` through the descriptor `fd` of the file `name`. -/
def World.write (w : World) (name : Path) (fd : Fd) (data : Bytes) : World where
  files := fun p => if p = name then
    some (writeAt (w.content name) ((w.fdpos fd).getD 0) data) else w.files p
  fdpos := fun f => if f = fd then some ((w.fdpos fd).getD 0 + data.length) else w.fdpos f

/-- A successful `mkstemp`: an empty file with a descriptor at its start. -/
def World.create (w : World) (name : Path) (fd : Fd) : World where
  files := fun p => if p = name then some [] else w.files p
  fdpos := fun f => if f = fd then some 0 else w.fdpos f

/-- A successful `open` of an existing file. -/
def World.opened (w : World) (fd : Fd) : World where
  files := w.files
  fdpos := fun f => if f = fd then some 0 else w.fdpos f

/-- A successful `lseek` to `pos`, or the offset after a `read` up to `pos`. -/
def World.lseek (w : World) (fd : Fd) (pos : Nat) : World where
  files := w.files
  fdpos := fun f => if f = fd then some pos else w.fdpos f

inductive ChunkType
  | memChunk
  | fileChunk
deriving DecidableEq, Repr

/-- The mapped window of a file chunk; `mapped` is `start != MAP_FAILED`. -/
structure Mmap where
  mapped : Bool
  length : Nat
  offset : Nat
deriving DecidableEq, Repr

/-- The `file` part of a chunk; `fd` is `none` for `-1`. -/
structure ChunkFile where
  name : Path
  start : Nat
  length : Nat
  fd : Option Fd
  mmap : Mmap
  isTemp : Bool
deriving DecidableEq, Repr

/-- `chunk`, without the link to the next one. -/
structure Chunk where
  type : ChunkType
  mem : Buffer
  file : ChunkFile
  offset : Nat
deriving DecidableEq, Repr

namespace Chunk

def noFile : ChunkFile := ⟨[], 0, 0, none, ⟨false, 0, 0⟩, false⟩

def init : Chunk := ⟨.memChunk, .init, noFile, 0⟩

def reset (c : Chunk) : Chunk := ⟨.memChunk, c.mem.reset, noFile, 0⟩

/-- The size of a chunk: the string in memory, or the length of the file range. -/
def size (c : Chunk) : Nat :=
  match c.type with
  | .memChunk => c.mem.stringLength
  | .fileChunk => c.file.length

def remainingLength (c : Chunk) : Option Nat :=
  if c.offset ≤ c.size then some (c.size - c.offset) else none

def allBytes (w : World) (c : Chunk) : Bytes :=
  match c.type with
  | .memChunk => c.mem.str
  | .fileChunk => ((w.content c.file.name).drop c.file.start).take c.file.length

def bytes (w : World) (c : Chunk) : Bytes := (c.allBytes w).drop c.offset

/-- The chunk after `n` more of its bytes have been consumed (`c->offset += n`). -/
def advance (c : Chunk) (n : Nat) : Chunk := { c with offset := c.offset + n }

/-- The representation invariant of one chunk: no more has been consumed than there is. -/
def OffsetOk (c : Chunk) : Prop := c.offset ≤ c.size

instance (c : Chunk) : Decidable c.OffsetOk := inferInstanceAs (Decidable (_ ≤ _))

/-- The range of a file chunk lies in its file. -/
def InFile (w : World) (c : Chunk) : Prop :=
  c.type = .fileChunk → c.file.start + c.file.length ≤ (w.content c.file.name).length

@[simp] theorem advance_type (c : Chunk) (n : Nat) : (c.advance n).type = c.type := rfl

@[simp] theorem advance_mem (c : Chunk) (n : Nat) : (c.advance n).mem = c.mem := rfl

@[simp] theorem advance_file (c : Chunk) (n : Nat) : (c.advance n).file = c.file := rfl

@[simp] theorem advance_offset (c : Chunk) (n : Nat) : (c.advance n).offset = c.offset + n := rfl

@[simp] theorem advance_size (c : Chunk) (n : Nat) : (c.advance n).size = c.size := rfl

/-- Consuming `n` bytes of a chunk drops them. -/
theorem bytes_advance (c : Chunk) (w : World) (n : Nat) : (c.advance n).bytes w = (c.bytes w).drop n := by
  simp [bytes, allBytes, List.drop_drop]

variable {c : Chunk} {w : World}

theorem remainingLength_eq (h : c.OffsetOk) : c.remainingLength = some (c.size - c.offset) :=
  if_pos h

theorem remainingLength_some {n : Nat} (h : c.remainingLength = some n) : c.OffsetOk ∧ n = c.size - c.offset := by
  unfold remainingLength at h
  split at h
  · rename_i ho; exact ⟨ho, (Option.some.inj h).symm⟩
  · cases h

theorem length_allBytes (h : c.InFile w) : (c.allBytes w).length = c.size := by
  unfold allBytes size
  cases ht : c.type with
  | memChunk => simp
  | fileChunk => have := h ht; simp; omega

theorem length_bytes (h : c.InFile w) : (c.bytes w).length = c.size - c.offset := by
  simp [bytes, length_allBytes h]

theorem inFile_mem (h : c.type = .memChunk) : c.InFile w := by
  intro h'; rw [h] at h'; cases h'

theorem bytes_congr {w' : World} (h : w'.files = w.files) (c : Chunk) : c.bytes w' = c.bytes w := by
  simp [bytes, allBytes, World.content, h]

theorem inFile_congr {w' : World} (h : w'.files = w.files) (hc : c.InFile w) : c.InFile w' := by
  intro ht
  rw [World.content, h]
  exact hc ht

end Chunk
end Lighttpd
