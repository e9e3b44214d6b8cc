import Esd1.NiosII.Bus

/-!
# `hex_zero.s`

The assembly version of the display: a pointer into a table of ten bytes, moved by one
for every press of KEY1 and wrapped around at both ends.
-/

namespace Esd1.Lab2

open Esd1.NiosII

inductive Label where
  | main
  | loop
  | press
  | release
  | addC
  | subC
  | wrapD
  | wrapU
  | display
  deriving DecidableEq, Repr

def switches : Word := 0x11020#32

def keys : Word := 0x11010#32

def hex0 : Word := 0x11000#32

/-- The bytes from `Hstart` to `Hend`. -/
def table : List Byte :=
  [0x40#8, 0x79#8, 0x24#8, 0x30#8, 0x19#8, 0x12#8, 0x02#8, 0x78#8, 0x00#8, 0x18#8]

def movia (reg : Reg) (addr : Word) : List (Line BusOp Label) :=
  [.movhi reg (hi addr), .ori reg reg (lo addr)]

/-- The program, with its table at `hstart`.  The third branch of `loop`, `press` and
`release` is never reached: the two before it are opposite. -/
def hexZero (hstart : Word) : List (Line BusOp Label) :=
  [Line.label .main] ++
  movia .r2 switches ++
  movia .r3 keys ++
  movia .r4 hex0 ++
  movia .r5 hstart ++
  movia .r6 hstart ++
  ([
    .addi .r7 .r6 9,
    .addi .r14 .r0 0xC0,
    .stbio .r14 0 .r4,
    .label .loop,
    .ldbio .r13 0 .r3,
    .andi .r13 .r13 2,
    .beq .r13 .r0 .press,
    .bne .r13 .r0 .loop,
    .br .loop,
    .label .press,
    .ldbio .r13 0 .r3,
    .andi .r13 .r13 2,
    .bne .r13 .r0 .release,
    .beq .r13 .r0 .press,
    .br .press,
    .label .release,
    .ldbio .r12 0 .r2,
    .andi .r12 .r12 1,
    .bne .r12 .r0 .addC,
    .beq .r12 .r0 .subC,
    .br .release,
    .label .addC,
    .beq .r5 .r7 .wrapD,
    .addi .r5 .r5 1,
    .br .display,
    .label .subC,
    .beq .r5 .r6 .wrapU,
    .subi .r5 .r5 1,
    .br .display,
    .label .wrapD,
    .subi .r5 .r5 9,
    .br .display,
    .label .wrapU,
    .addi .r5 .r5 9,
    .br .display,
    .label .display,
    .ldbio .r14 0 .r5,
    .stbio .r14 0 .r4,
    .br .loop ] : List (Line BusOp Label))

theorem address_hexZero (hstart : Word) (l : Label) :
    address (hexZero hstart) l = address (hexZero 0#32) l := by
  cases l <;> rfl

def tableAt (hstart addr : Word) : Option Byte := table[(addr - hstart).toNat]?

/-- What the bus promises: a load through `r5` inside the table returns the byte of the
table.  The bytes that the keys and the switches return are not restricted. -/
def TableLoaded (hstart : Word) (_ : State) : Access → Prop
  | .load base addr value => base = .r5 → ∀ b ∈ tableAt hstart addr, value = b
  | _ => True

instance (hstart : Word) (s : State) : (e : Access) → Decidable (TableLoaded hstart s e)
  | .load base addr value =>
      inferInstanceAs (Decidable (base = .r5 → ∀ b ∈ tableAt hstart addr, value = b))
  | .internal | .store _ _ _ => inferInstanceAs (Decidable True)

/-- The accesses that the program is meant to make. -/
def Intended (hstart : Word) : Access → Prop
  | .internal => True
  | .load .r2 addr _ => addr = switches
  | .load .r3 addr _ => addr = keys
  | .load .r5 addr _ => hstart.toNat ≤ addr.toNat ∧ addr.toNat ≤ hstart.toNat + 9
  | .load _ _ _ => False
  | .store _ addr _ => addr = hex0

def hexStore? : Access → Option Byte
  | .store _ addr value => if addr = hex0 then some value else none
  | _ => none

def hexStores (es : List Access) : List Byte := es.filterMap hexStore?

theorem hexStores_append (es : List Access) (e : Access) :
    hexStores (es ++ [e]) = hexStores es ++ (hexStore? e).toList := by
  rw [hexStores, hexStores, List.filterMap_append]
  cases h : hexStore? e <;> simp [h]

end Esd1.Lab2
