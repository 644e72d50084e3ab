import Mathlib.Data.List.Basic

/-! The byte buffer that a nebula connection reads into and writes from. -/

namespace SimpleSrv.Nebula

/-- A byte, as `char` stores it. -/
abbrev Byte := UInt8

/-- `Buffer`, whose only field is the `std::string buf_`. -/
structure Buffer where
  buf : List Byte := []
  deriving DecidableEq, Repr

namespace Buffer

/-- `Buffer::Append` copies at most `size` bytes of `str`. -/
def append (buffer : Buffer) : List Byte → Nat → Buffer
  | _, 0 => buffer
  | [], _ => buffer
  | byte :: str, size + 1 =>
    -- The copy loop stops at the first zero byte, whatever the size says.
    if byte = 0 then buffer else append ⟨buffer.buf ++ [byte]⟩ str size

/-- `Buffer::Size`. -/
def size (buffer : Buffer) : Nat := buffer.buf.length

/-- `Buffer::ToStr`, the bytes that stand behind `c_str()` for `Size()` positions. -/
def toStr (buffer : Buffer) : List Byte := buffer.buf

/-- `Buffer::Clear`. -/
def clear (_ : Buffer) : Buffer := ⟨[]⟩

/-- `Buffer::SetBuf` reads its argument as a C string, up to the first zero byte. -/
def setBuf (_ : Buffer) (str : List Byte) : Buffer := ⟨str.takeWhile (· ≠ 0)⟩

end Buffer

end SimpleSrv.Nebula
