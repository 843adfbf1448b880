import SsuOs.Ssufs.Ops

/-!
# An abstract file store

What ssufs is for, without blocks, free lists and inodes: eight slots, each empty or with a file,
which is a name and at most 256 bytes, and twenty handles, each closed or at an offset of the file
in some slot. Files grow at their end only. `Refinement` shows that ssufs behaves like this store
as long as its user writes at the end of files and does not fill the disk.
-/

namespace SsuOs.Ssufs

/-- A file: its name and its bytes. -/
structure File where
  name : CString
  bytes : List Byte
  short : bytes.length ≤ 256

/-- A file with more bytes at its end. -/
def File.append (file : File) (data : List Byte) (fits : file.bytes.length + data.length ≤ 256) :
    File where
  name := file.name
  bytes := file.bytes ++ data
  short := by rwa [List.length_append]

structure FileStore where
  slot : Fin 8 → Option File
  handle : Fin 20 → Option (Fin 8 × ℕ)

namespace FileStore

/-- The store without files and open handles. -/
def empty : FileStore where
  slot _ := none
  handle _ := none

variable (a : FileStore)

/-- The lowest slot with a file of this name. -/
def lookup (name : CString) : Option (Fin 8) :=
  (List.finRange 8).find? fun i => (a.slot i).map File.name = some name

def firstEmpty : Option (Fin 8) := (List.finRange 8).find? fun i => (a.slot i).isNone

def firstClosed : Option (Fin 20) := (List.finRange 20).find? fun h => (a.handle h).isNone

/-- The slot, the offset and the file behind a handle. -/
def opened (h : Fin 20) : Option (Fin 8 × ℕ × File) :=
  (a.handle h).bind fun place => (a.slot place.1).map fun file => (place.1, place.2, file)

def putSlot (i : Fin 8) (file : Option File) : FileStore :=
  { a with slot := Function.update a.slot i file }

@[simps -fullyApplied]
def putHandle (h : Fin 20) (place : Option (Fin 8 × ℕ)) : FileStore :=
  { a with handle := Function.update a.handle h place }

/-- The operations return what ssufs returns, and the store after the call. -/
def create (name : CString) : Int32 × FileStore :=
  match a.lookup name, a.firstEmpty with
  | none, some i => (ofIndex i, a.putSlot i (some ⟨name, [], Nat.zero_le _⟩))
  | _, _ => (-1, a)

def openFile (name : CString) : Int32 × FileStore :=
  match a.lookup name with
  | none => (-1, a)
  | some i =>
    match a.firstClosed with
    | none => (-1, a)
    | some h => (ofIndex h, a.putHandle h (some (i, 0)))

def write (h : Fin 20) (data : List Byte) : Int32 × FileStore :=
  match a.opened h with
  | none => (-1, a)
  | some (i, o, file) =>
    if fits : file.bytes.length + data.length ≤ 256 then
      (0, (a.putSlot i (some (file.append data fits))).putHandle h (some (i, o + data.length)))
    else (-1, a)

def read (h : Fin 20) (n : ℕ) : (Int32 × List Byte) × FileStore :=
  match a.opened h with
  | none => ((-1, []), a)
  | some (i, o, file) =>
    if o + n ≤ file.bytes.length then
      ((0, (file.bytes.drop o).take n), a.putHandle h (some (i, o + n)))
    else ((-1, []), a)

def lseek (h : Fin 20) (n : ℤ) : Int32 × FileStore :=
  match a.opened h with
  | none => (-1, a)
  | some (i, o, file) =>
    if 0 ≤ o + n ∧ o + n ≤ file.bytes.length then (0, a.putHandle h (some (i, (o + n).toNat)))
    else (-1, a)

def close (h : Fin 20) : FileStore := a.putHandle h none

def delete (name : CString) : FileStore :=
  match a.lookup name with
  | none => a
  | some i => a.putSlot i none

/-- The answer to a call, and the store after it. -/
def exec (a : FileStore) : Call → Reply × FileStore
  | .create filename => (⟨some (a.create filename).1, []⟩, (a.create filename).2)
  | .openFile filename => (⟨some (a.openFile filename).1, []⟩, (a.openFile filename).2)
  | .write h buf nbytes =>
    let data := List.ofFn fun k : Fin nbytes.toInt.toNat => buf k
    (⟨some (a.write h data).1, []⟩, (a.write h data).2)
  | .read h nbytes =>
    (⟨some (a.read h nbytes.toInt.toNat).1.1, (a.read h nbytes.toInt.toNat).1.2⟩,
      (a.read h nbytes.toInt.toNat).2)
  | .lseek h nseek => (⟨some (a.lseek h nseek.toInt).1, []⟩, (a.lseek h nseek.toInt).2)
  | .close h => (⟨none, []⟩, a.close h)
  | .delete filename => (⟨none, []⟩, a.delete filename)

end FileStore

end SsuOs.Ssufs
