import SsuOs.Base.Bytes

/-!
# Sizes of the file system

The constants of `param.h` and `fs.h` that more than one part of the file system uses.
-/

namespace SsuOs.Xv6Fs

/-- `BSIZE`. -/
abbrev bsize : ℕ := 512

/-- `FSSIZE`. -/
abbrev fsSize : ℕ := 1000

/-- `MAXOPBLOCKS`. -/
abbrev maxOpBlocks : ℕ := 10

/-- `LOGSIZE`. -/
abbrev logSize : ℕ := maxOpBlocks * 3

/-- `NINODE`. -/
abbrev ninode : ℕ := 50

/-- The data of a buffer. -/
abbrev Block := Bytes bsize

end SsuOs.Xv6Fs
