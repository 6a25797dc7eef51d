/-
The keys of the two column families.

meta_cf mixes four formats in one key space: directory entries
`"%ld_%s"`, inode records under their number's 8 bytes, the inode seed
and the superblock. data_cf has one: the 16 bytes of a `vn_extent_key`,
which vn_env.cpp's prefix extractor reads.
-/
import ViveNas.Machine

namespace ViveNas

open LittleEndian

/-- A C string's bytes: no NUL among them. -/
abbrev FileName := { b : Bytes // (0 : UInt8) ∉ b }

/-- A letter by itself is a name. -/
theorem nul_not_mem_letter : (0 : UInt8) ∉ ([97] : Bytes) := by decide

/-- The bytes of an ASCII literal. -/
def ascii (s : String) : Bytes := s.toList.map fun c => UInt8.ofNat c.toNat

/-- The underscore between the parent's number and the name. -/
def underscore : UInt8 := 95

/-- `%d` of a natural number. -/
def formatNat (n : Nat) : Bytes :=
  (Nat.toDigits 10 n).map fun c => UInt8.ofNat c.toNat

/-- `%ld`. -/
def formatLd (i : Int) : Bytes :=
  if i < 0 then 45 :: formatNat i.natAbs else formatNat i.natAbs

/-- `format_string("%ld_", parent)`: what every entry of a directory
starts with. -/
def dirPrefix (parent : Int) : Bytes := formatLd parent ++ [underscore]

/-- `format_string("%ld_%s", parent, name)`. -/
def fileKey (parent : Int) (name : FileName) : Bytes :=
  dirPrefix parent ++ name.val

/-- An inode number's 8 bytes, the key of its record. -/
def inodeKey (ino : Nat) : Bytes := leBytes 8 ino

/-- `INODE_SEED_KEY`. -/
def inodeSeedKey : Bytes := ascii "__inode_seed__"

/-- The superblock's key. -/
def superblockKey : Bytes := ascii "vivefs_sb"

/-- `vn_extent_key`: the index, then the inode number. -/
def vnExtentKey (extentIndex inodeNo : Nat) : Bytes :=
  leBytes 8 extentIndex ++ leBytes 8 inodeNo

/-- A 64-bit pattern read as `int64_t`. -/
def asInt64 (n : Nat) : Int := if n < 2 ^ 63 then n else (n : Int) - 2 ^ 64

/-- `*(int64_t*)data`, as the bit pattern. -/
def loadInt64 (v : Bytes) : Except Fault Nat := loadLe v 0 8

namespace ExtPrefixExtrator

/-- `Transform`: the `inode_no` of the `vn_extent_key` at the slice's
start, wherever the slice ends. -/
def transform (key : Bytes) : Except Fault Bytes :=
  if 8 + 8 ≤ key.length then .ok ((key.drop 8).take 8)
  else .error .outOfBounds

/-- `InDomain`. -/
def inDomain (_key : Bytes) : Bool := true

end ExtPrefixExtrator

end ViveNas
