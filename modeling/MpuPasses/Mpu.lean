import Mathlib

/-!
# The MPU registers and `mpu_configure.c`

The MPU of an ARMv7-M core shows one bank of two registers at a time: `RNR` selects a region,
`RBAR` and `RASR` are the base and the attributes of the selected one. A write to `RBAR` whose
VALID bit is set selects the region named by its low bits first; a read returns the selected number
in these bits. On this device the four functions of `mpu_configure.c` are written register access
by register access.
-/

namespace MpuPasses

/-- The two registers of a region. -/
structure Bank where
  rbar : BitVec 32
  rasr : BitVec 32
  deriving DecidableEq, Repr

/-- The registers that `mpu_configure.c` touches; `RNR` holds the region number in its low byte. -/
structure Device where
  shcsr : BitVec 32
  ctrl : BitVec 32
  rnr : BitVec 32
  bank : BitVec 8 → Bank

/-- The address bits 31..5 of `RBAR`. -/
def addrMask : BitVec 32 := 0xFFFFFFE0#32

namespace Device

/-- The region that `RNR` selects. -/
def region (d : Device) : BitVec 8 := d.rnr.setWidth 8

def writeShcsr (v : BitVec 32) (d : Device) : Device := { d with shcsr := v }

def writeCtrl (v : BitVec 32) (d : Device) : Device := { d with ctrl := v }

def writeRnr (v : BitVec 32) (d : Device) : Device := { d with rnr := v }

/-- Replace the bank of the selected region. -/
def setBank (b : Bank) (d : Device) : Device :=
  { d with bank := Function.update d.bank d.region b }

/-- A write to `RBAR`. VALID (bit 4) takes the region number from bits 3..0. -/
def writeRbar (v : BitVec 32) (d : Device) : Device :=
  let d := if v.getLsbD 4 then { d with rnr := v &&& 0xF#32 } else d
  d.setBank { d.bank d.region with rbar := v &&& addrMask }

def writeRasr (v : BitVec 32) (d : Device) : Device :=
  d.setBank { d.bank d.region with rasr := v }

@[simp] theorem writeRbar_shcsr (v : BitVec 32) (d : Device) : (d.writeRbar v).shcsr = d.shcsr := by
  unfold writeRbar; split_ifs <;> rfl

/-- A read of `RBAR`: VALID reads as zero and REGION as the selected number. -/
def readRbar (d : Device) : BitVec 32 := (d.bank d.region).rbar &&& addrMask ||| d.rnr &&& 0xF#32

def readRasr (d : Device) : BitVec 32 := (d.bank d.region).rasr

end Device

/-! ## `mpu_configure.c` -/

def xnBit : ℕ := 28
def apBit : ℕ := 24
def texBit : ℕ := 19
def sBit : ℕ := 18
def cBit : ℕ := 17
def bBit : ℕ := 16
def srdBit : ℕ := 8
def sizeBit : ℕ := 1
def enableBit : ℕ := 0

/-- `RASR` of `MPU_Config`: full access, the size field and the enable bit. -/
def configRasr (size : BitVec 32) : BitVec 32 :=
  0b111#32 <<< apBit ||| (size &&& 0x1F#32) <<< sizeBit ||| 0b1#32 <<< enableBit

/-- `RASR` of `MPU_zero_region`: full access without execution. The comments at the end of the source's
lines, no access and fetches enabled, are not what the bits say. -/
def zeroRegionRasr (size : BitVec 32) : BitVec 32 :=
  0b1#32 <<< xnBit ||| 0b011#32 <<< apBit ||| 0b000#32 <<< texBit ||| 0b0#32 <<< sBit |||
    0b0#32 <<< cBit ||| 0b0#32 <<< bBit ||| 0b00000000#32 <<< srdBit |||
    (size &&& 0x1F#32) <<< sizeBit ||| 0b1#32 <<< enableBit

/-- `SCB->SHCSR &= ~(1 << 16); MPU->CTRL = 0U`. -/
def disable (d : Device) : Device :=
  (d.writeShcsr (d.shcsr &&& ~~~(1#32 <<< 16))).writeCtrl 0#32

/-- `MPU->CTRL = (1 << 2) | (1 << 0); SCB->SHCSR |= (1 << 16)`. -/
def enable (d : Device) : Device :=
  let d := d.writeCtrl (1#32 <<< 2 ||| 1#32 <<< 0)
  d.writeShcsr (d.shcsr ||| 1#32 <<< 16)

/-- `MPU_Config`. -/
def mpuConfig (start size num : BitVec 32) (d : Device) : Device :=
  let d := disable d
  let d := d.writeRnr num
  let d := d.writeRbar start
  let d := d.writeRasr (configRasr size)
  enable d

/-- `MPU_zero_region`. -/
def mpuZeroRegion (start size num : BitVec 32) (d : Device) : Device :=
  let d := disable d
  let d := d.writeRnr num
  let d := d.writeRbar (start &&& 0xFFFFFFE0#32)
  let d := d.writeRasr (zeroRegionRasr size)
  enable d

/-- `Read_Caller_addr`. -/
def readCallerAddr (d : Device) : Device × BitVec 32 :=
  let d := d.writeRnr 1#32
  (d, d.readRbar &&& 0xFFFFFFE0#32)

/-- `Read_Caller_size`. -/
def readCallerSize (d : Device) : Device × BitVec 32 :=
  let d := d.writeRnr 1#32
  (d, d.readRasr >>> 1 &&& 0x1F#32)

end MpuPasses
