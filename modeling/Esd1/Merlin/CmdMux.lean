import Esd1.Merlin.Arbitrator

/-!
# `nios_system_mm_interconnect_0_cmd_mux_002`

The multiplexer in front of a slave that both masters reach: the on-chip memory, and the
debug port of the processor.  The data master and the instruction master send it packets of
one or more beats, and the arbitrator says whose turn it is.

With `PIPELINE_ARB` the request is `valid | locked`, and nothing reads `prev_request`.
-/

namespace Esd1.Merlin

/-- What a master drives on its sink. -/
structure Sink where
  valid : Bool
  data : BitVec 95
  channel : BitVec 9
  startofpacket : Bool
  endofpacket : Bool
  deriving DecidableEq, Repr

namespace Sink

/-- `{sink_channel, sink_data, sink_startofpacket, sink_endofpacket}`. -/
def payload (s : Sink) : BitVec 106 :=
  s.channel ++ s.data ++ BitVec.ofBool s.startofpacket ++ BitVec.ofBool s.endofpacket

/-- `sink_data[PKT_TRANS_LOCK]`. -/
def lock (s : Sink) : Bool := s.data.getLsbD 57

end Sink

namespace CmdMux

structure Registers where
  savedGrant : BitVec 2
  packetInProgress : Bool
  locked : BitVec 2
  shareCount : BitVec 1
  shareCountZeroFlag : Bool
  topPriorityReg : BitVec 2
  deriving DecidableEq, Repr

structure Inputs where
  sink0 : Sink
  sink1 : Sink
  srcReady : Bool
  deriving DecidableEq, Repr

namespace Inputs

variable (i : Inputs)

def valid : BitVec 2 := BitVec.ofBool i.sink1.valid ++ BitVec.ofBool i.sink0.valid

def lock : BitVec 2 := BitVec.ofBool i.sink1.lock ++ BitVec.ofBool i.sink0.lock

def sink (k : Nat) : Sink := if k = 0 then i.sink0 else i.sink1

end Inputs

def arb : Params := ⟨.roundRobin, true⟩

section Wires

variable (r : Registers) (i : Inputs)

def request : BitVec 2 := i.valid ||| r.locked

def nextGrant : BitVec 2 := Arbitrator.grant arb r.topPriorityReg (request r i)

def sinkReady (k : Nat) : Bool := i.srcReady && r.savedGrant.getLsbD k

def srcValid : Bool := r.savedGrant &&& i.valid != 0#2

/-- `{PAYLOAD_W {b}}`. -/
def spread (b : Bool) : BitVec 106 := if b then BitVec.allOnes 106 else 0#106

def srcPayload : BitVec 106 :=
  (i.sink0.payload &&& spread (r.savedGrant.getLsbD 0)) |||
    (i.sink1.payload &&& spread (r.savedGrant.getLsbD 1))

def srcEndofpacket : Bool := (srcPayload r i).getLsbD 0

def lastCycle : Bool :=
  srcValid r i && i.srcReady && srcEndofpacket r i && !(i.lock &&& r.savedGrant != 0#2)

def updateGrant : Bool :=
  !r.packetInProgress && !srcValid r i || lastCycle r i && r.shareCountZeroFlag

/-- The shares are `1 1`, so their load values are zero. -/
def nextGrantShare : BitVec 1 :=
  let share0 := 0#1
  let share1 := 0#1
  (share0 &&& BitVec.ofBool ((nextGrant r i).getLsbD 0)) |||
    (share1 &&& BitVec.ofBool ((nextGrant r i).getLsbD 1))

def p1ShareCount : BitVec 1 := if r.shareCountZeroFlag then 0#1 else r.shareCount - 1#1

def edge : Registers where
  savedGrant := if updateGrant r i then nextGrant r i else r.savedGrant
  packetInProgress :=
    if lastCycle r i then false else if srcValid r i then true else r.packetInProgress
  locked := nextGrant r i &&& i.lock
  shareCount :=
    if updateGrant r i then nextGrantShare r i
    else if lastCycle r i then p1ShareCount r
    else r.shareCount
  shareCountZeroFlag :=
    if updateGrant r i then nextGrantShare r i == 0#1
    else if lastCycle r i then p1ShareCount r == 0#1
    else r.shareCountZeroFlag
  topPriorityReg :=
    Arbitrator.edge arb r.topPriorityReg ⟨request r i, updateGrant r i, srcValid r i⟩

end Wires

def machine : Clocked.Machine Registers Inputs where
  reset := ⟨0#2, false, 0#2, 0#1, true, 1#2⟩
  edge := edge

/-! ## What goes through -/

section Beats

variable (r : Registers) (i : Inputs)

def sinkBeat (k : Nat) : List (BitVec 106) :=
  if sinkReady r i k && (i.sink k).valid then [(i.sink k).payload] else []

/-- The beat that the source hands over, with the number of the granted sink. -/
def srcBeat : List (Nat × BitVec 106) :=
  if srcValid r i && i.srcReady then
    [(if r.savedGrant.getLsbD 0 then 0 else 1, srcPayload r i)]
  else []

end Beats

def handedOver (u : Nat → Inputs) (k n : Nat) : List (BitVec 106) :=
  (List.range n).flatMap fun t => sinkBeat (machine.run u t) (u t) k

def delivered (u : Nat → Inputs) (n : Nat) : List (Nat × BitVec 106) :=
  (List.range n).flatMap fun t => srcBeat (machine.run u t) (u t)

/-- The last beat of a packet that does not hold the slave for more. -/
def closes (payload : BitVec 106) : Bool := payload.getLsbD 0 && !payload.getLsbD 59

end CmdMux

end Esd1.Merlin
