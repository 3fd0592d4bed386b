import StampedPrograms.Error

/-!
A place for a codec that packs sources into bytes. A host need not install one.
-/

namespace StampedPrograms

structure Codec where
  pack : String → Except Error (List UInt8)
  unpack : List UInt8 → Except Error String

/-- A place that may hold a codec. -/
structure CodecSlot where
  codec : Option Codec

namespace CodecSlot

/-- The name of the capability that an empty place lacks. -/
def capability : String := "scxq2-pack"

def isAvailable (slot : CodecSlot) : Bool :=
  slot.codec.isSome

def installed (slot : CodecSlot) : Except Error Codec :=
  match slot.codec with
  | some codec => .ok codec
  | none => .error (.capabilityUnavailable capability)

def pack (slot : CodecSlot) (text : String) : Except Error (List UInt8) := do
  (← slot.installed).pack text

def unpack (slot : CodecSlot) (packed : List UInt8) : Except Error String := do
  (← slot.installed).unpack packed

end CodecSlot

end StampedPrograms
