import Mathlib.Logic.Function.Basic
import Plak1a.Lib.Masks

/-!
# Port pins of the kernel

The functions of `gpio.c` for the direction of a pin. A pin number is the port times 32 plus
the bit of the port. The setters take the bit itself for the mask of the direction register,
the getter and `gpio_set_value` shift by it.
-/

namespace Plak1a.Kernel.Gpio

/-- The pins of the five ports. -/
abbrev Pin := Fin 160

/-- `pin >> 5` -/
def Pin.port (pin : Pin) : Fin 5 := ⟨pin.val >>> 5, by
  have h := pin.isLt
  rw [Nat.shiftRight_eq_div_pow]
  omega⟩

/-- `pin & 31` -/
def Pin.bit (pin : Pin) : UInt32 := UInt32.ofNat pin.val &&& 31

/-- `pin >> 4`, the register of the pin in `TAB_PINSEL` and `TAB_PINMODE` -/
def Pin.reg (pin : Pin) : Fin 10 := ⟨pin.val >>> 4, by
  have h := pin.isLt
  rw [Nat.shiftRight_eq_div_pow]
  omega⟩

/-- A port of `lpc22xx_fio_registers`. Writes to `FIOSET` and `FIOCLR` change the bits of the
output latch that `FIOMASK` leaves free. -/
structure FioPort where
  fiodir : UInt32
  fiomask : UInt32
  latch : UInt32

structure Registers where
  tabPinsel : Fin 10 → UInt32
  tabPinmode : Fin 10 → UInt32
  port : Fin 5 → FioPort
  /-- what `printk` has put out -/
  log : List String

namespace Registers

variable (r : Registers)

def modifyPort (port : Fin 5) (f : FioPort → FioPort) : Registers :=
  { r with port := Function.update r.port port (f (r.port port)) }

/-- The two calls of `printk` in `lpc22xx_set_periph`. -/
def alreadyUsed (pin : Pin) (pinsel : UInt32) (pinmode : Int32) (mode : UInt32) : List String :=
  let port := pin.port.val
  let bit := pin.bit
  let sel := pinsel.toInt32
  [s!"lpc22xx_set_periph(P{port}.{bit},{sel},{pinmode}) =>", s!" already used in mode={mode}\n"]

def setPeriph (pin : Pin) (pinsel : UInt32) (pinmode : Int32) : Int32 × Registers :=
  let reg := pin.reg
  let shift := (UInt32.ofNat pin.val &&& 15) * 2
  let regMask := (3 : UInt32) <<< shift
  let regPinsel := (pinsel &&& 3) <<< shift
  let regPinmode := (pinmode.toUInt32 &&& 3) <<< shift
  let r :=
    if r.tabPinsel reg &&& regMask = 0 then
      { r with tabPinsel := Function.update r.tabPinsel reg (r.tabPinsel reg ||| regPinsel) }
    else if r.tabPinsel reg &&& regMask ≠ regPinsel then
      { r with
        log := r.log ++ alreadyUsed pin pinsel pinmode ((r.tabPinsel reg >>> shift) &&& 3) }
    else r
  let r :=
    if 0 ≤ pinmode then
      { r with
        tabPinmode := Function.update r.tabPinmode reg
          ((r.tabPinmode reg &&& ~~~ regMask) ||| regPinmode) }
    else r
  (0, r)

def gpioSetValue (gpio : Pin) (value : Int32) : Registers :=
  let mask := (1 : UInt32) <<< gpio.bit
  if value ≠ 0 then
    r.modifyPort gpio.port fun p => { p with latch := p.latch ||| (mask &&& ~~~ p.fiomask) }
  else
    r.modifyPort gpio.port fun p => { p with latch := p.latch &&& ~~~ (mask &&& ~~~ p.fiomask) }

def setGpioInput (pin : Pin) (mode : Int32) : Int32 × Registers :=
  let mask := pin.bit * 1
  let r := (r.setPeriph pin 0 mode).2
  (0, r.modifyPort pin.port fun p => { p with fiodir := p.fiodir &&& ~~~ mask })

def setGpioOutput (pin : Pin) (value : Int32) : Int32 × Registers :=
  let mask := pin.bit * 1
  let r := (r.setPeriph pin 0 2).2
  let r := r.modifyPort pin.port fun p => { p with fiodir := p.fiodir ||| mask }
  (0, r.gpioSetValue pin value)

def getGpioDir (pin : Pin) : Int32 :=
  let shift := pin.bit * 1
  (((r.port pin.port).fiodir >>> shift) &&& 1).toInt32

end Registers

end Plak1a.Kernel.Gpio
