import SimpleWeb.Lib.CArray

/-!
# SimpleWeb.Utils

Bytes and the character tables of `http/utils.hpp`. A C string, a `std::string` and what a
stream still has to deliver are all lists of bytes; a `u_char` is a `UInt8`.
-/

namespace SimpleWeb

abbrev Bytes := List UInt8

instance : LawfulBEq Bytes := inferInstance

/-- The byte of an ASCII character literal. -/
def byte (c : Char) : UInt8 := UInt8.ofNat c.toNat

def ascii (s : String) : Bytes := s.toList.map byte

def LF : UInt8 := 10
def CR : UInt8 := 13

def MAXFIELDNAME : Nat := 64
def MAXFIELDVALUE : Nat := 1024
def MAXTRUNK : Nat := 4096

def usualTable : List UInt32 :=
  [0xffffdbfe, 0x7fff37d6, 0xffffffff, 0xffffffff, 0xffffffff, 0xffffffff, 0xffffffff, 0xffffffff]

/-- `usual[ch >> 5] & (1U << (ch & 0x1f))` -/
def usual (ch : UInt8) : Bool :=
  (usualTable.getD (ch >>> 5).toNat 0 &&& (1 <<< (ch &&& 0x1f).toUInt32)) != 0

def lowcaseTable : Bytes :=
  List.replicate 32 0 ++
  (List.replicate 13 0 ++ ascii "-" ++ List.replicate 2 0) ++
  (ascii "0123456789" ++ List.replicate 6 0) ++
  (0 :: ascii "abcdefghijklmnopqrstuvwxyz" ++ List.replicate 5 0) ++
  (0 :: ascii "abcdefghijklmnopqrstuvwxyz" ++ List.replicate 5 0) ++
  List.replicate 128 0

/-- `lowcase[ch]` read as a truth value -/
def lowcase (ch : UInt8) : Bool := lowcaseTable.getD ch.toNat 0 != 0

/-- `isprint` in the "C" locale -/
def isprint (ch : UInt8) : Bool := 32 ≤ ch && ch ≤ 126

/-- `strncmp(a, b, n) == 0`. The comparison never runs off an array: both ends of a list count
as a difference. -/
def strncmpEq : Bytes → Bytes → Nat → Bool
  | _, _, 0 => true
  | a :: as, b :: bs, n + 1 => if a = b then a = 0 || strncmpEq as bs n else false
  | _, _, _ + 1 => false

/-! ## Literals

Literals are the same byte only when they are the same character: `simp` settles every test of
one delimiter against another. -/

section Literals

variable {c d : Char}

@[simp] theorem byte_inj (hc : c.toNat < 256) (hd : d.toNat < 256) : byte c = byte d ↔ c = d := by
  constructor
  · intro h
    have hnat := congrArg UInt8.toNat h
    simp only [byte, UInt8.toNat_ofNat', Nat.mod_eq_of_lt hc, Nat.mod_eq_of_lt hd] at hnat
    exact Char.toNat_inj.mp hnat
  · intro h
    rw [h]

theorem LF_eq : LF = byte '\n' := rfl

theorem CR_eq : CR = byte '\r' := rfl

@[simp] theorem LF_eq_byte (hc : c.toNat < 256) : LF = byte c ↔ '\n' = c := by
  rw [LF_eq, byte_inj (by decide) hc]

@[simp] theorem byte_eq_LF (hc : c.toNat < 256) : byte c = LF ↔ c = '\n' := by
  rw [LF_eq, byte_inj hc (by decide)]

@[simp] theorem CR_eq_byte (hc : c.toNat < 256) : CR = byte c ↔ '\r' = c := by
  rw [CR_eq, byte_inj (by decide) hc]

@[simp] theorem byte_eq_CR (hc : c.toNat < 256) : byte c = CR ↔ c = '\r' := by
  rw [CR_eq, byte_inj hc (by decide)]

@[simp] theorem byte_eq_zero (hc : c.toNat < 256) : byte c = 0 ↔ c = '\x00' :=
  byte_inj hc (d := '\x00') (by decide)

@[simp] theorem LF_ne_CR : LF ≠ CR := by simp [CR_eq]

@[simp] theorem CR_ne_LF : CR ≠ LF := by simp [CR_eq]

@[simp] theorem zero_ne_LF : (0 : UInt8) ≠ LF := by decide

@[simp] theorem zero_ne_CR : (0 : UInt8) ≠ CR := by decide

end Literals

/-! ## The tables, byte by byte -/

theorem usual_iff : ∀ ch : UInt8,
    usual ch = true ↔ ch ∉ [0, LF, CR, byte ' ', byte '#', byte '%', byte '+', byte '.', byte '/',
      byte '?'] := by
  decide +kernel

def isLetter (ch : UInt8) : Bool :=
  (byte 'A' ≤ ch && ch ≤ byte 'Z') || (byte 'a' ≤ ch && ch ≤ byte 'z')

def isDigit (ch : UInt8) : Bool := byte '0' ≤ ch && ch ≤ byte '9'

theorem lowcase_eq : ∀ ch : UInt8,
    lowcase ch = (isLetter ch || isDigit ch || ch == byte '-') := by
  decide +kernel

theorem lowcase_ne : ∀ ch : UInt8, lowcase ch = true →
    ch ≠ 0 ∧ ch ≠ LF ∧ ch ≠ CR ∧ ch ≠ byte ' ' ∧ ch ≠ byte ':' := by
  decide +kernel

theorem isprint_ne : ∀ ch : UInt8, isprint ch = true → ch ≠ 0 ∧ ch ≠ LF ∧ ch ≠ CR := by
  decide +kernel

@[simp] theorem usual_delimiters :
    usual (byte ' ') = false ∧ usual (byte '?') = false ∧ usual (byte '/') = false ∧
      usual LF = false := by
  simp [Bool.eq_false_iff, usual_iff]

@[simp] theorem usual_digits : usual (byte '0') = true ∧ usual (byte '1') = true := by
  simp [usual_iff]

@[simp] theorem usual_letters :
    usual (byte 'H') = true ∧ usual (byte 'T') = true ∧ usual (byte 'P') = true := by
  simp [usual_iff]

@[simp] theorem lowcase_colon : lowcase (byte ':') = false := by decide

@[simp] theorem isprint_ends : isprint (byte ' ') = true ∧ isprint LF = false := by decide

end SimpleWeb
