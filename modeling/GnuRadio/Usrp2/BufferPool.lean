import Mathlib.Data.UInt

/-!
# The buffer pool

The firmware moves packets through the eight buffers of the buffer pool. It starts and
stops transfers by writing words to a control register, and a status word tells it which
transfers are over.
-/

namespace GnuRadio.Usrp2

/-- `NBUFFERS`. -/
abbrev nbuffers : Nat := 8

/-! The numbers of buffers, ports, steps and lines have numerals. -/

scoped instance two_neZero : NeZero 2 := ⟨Nat.succ_ne_zero 1⟩
scoped instance three_neZero : NeZero 3 := ⟨Nat.succ_ne_zero 2⟩
scoped instance nbuffers_neZero : NeZero nbuffers := ⟨Nat.succ_ne_zero 7⟩
scoped instance sixteen_neZero : NeZero 16 := ⟨Nat.succ_ne_zero 15⟩
scoped instance lines_neZero : NeZero 512 := ⟨Nat.succ_ne_zero 511⟩

/-- `buffer_state_t`, in `dbsm.c` and in `bsm12.c`. -/
inductive BufferState where
  | empty
  | filling
  | full
  | emptying
  deriving DecidableEq, Repr

/-- `buf_cmd_args_t` (`dbsm.h:43-48`). -/
structure BufCmdArgs where
  port : UInt16
  firstLine : UInt16
  lastLine : UInt16
  deriving DecidableEq, Repr

/-- A word for the control register, by its fields (`memory_map.h:318-347`), which do not overlap.
-/
structure CtrlWord where
  buffer : Fin 16
  port : Fin 8
  clr : Bool
  read : Bool
  write : Bool
  step : Fin 16
  lastLine : Fin 512
  firstLine : Fin 512
  deriving DecidableEq, Repr

def bpcBuffer (bufno : Fin nbuffers) : Fin 16 := Fin.castLE (by decide) bufno

def bpcPort (port : UInt16) : Fin 8 := Fin.ofNat 8 port.toNat

/-- `BPC_FIRST_LINE` and `BPC_LAST_LINE`. -/
def bpcLine (line : UInt32) : Fin 512 := Fin.ofNat 512 line.toNat

/-- `bp_clear_buf` (`buffer_pool.h:40-44`), the word. `PORT_NIL` is 4. -/
def clearWord (bufnum : Fin nbuffers) : CtrlWord :=
  ⟨bpcBuffer bufnum, 4, true, false, false, 0, 0, 0⟩

/-- The words that the machines compute beforehand for a receive (`dbsm.c:72-86`). -/
def receiveWord (bufno : Fin nbuffers) (args : BufCmdArgs) : CtrlWord :=
  ⟨bpcBuffer bufno, bpcPort args.port, false, true, false, 1, bpcLine args.lastLine.toUInt32,
    bpcLine args.firstLine.toUInt32⟩

/-- The words for a send, without the last line (`dbsm.c:88-102`). -/
def sendWord (bufno : Fin nbuffers) (args : BufCmdArgs) : CtrlWord :=
  ⟨bpcBuffer bufno, bpcPort args.port, false, false, true, 1, 0, bpcLine args.firstLine.toUInt32⟩

/-- `word | BPC_LAST_LINE(line)`. -/
def CtrlWord.withLastLine (word : CtrlWord) (line : UInt32) : CtrlWord :=
  { word with lastLine := Fin.ofNat 512 (word.lastLine.val ||| (bpcLine line).val) }

/-- What a buffer is used for, until the next word about it. -/
inductive Transfer where
  | idle
  | receiving (port : Fin 8)
  | sending (port : Fin 8)
  deriving DecidableEq, Repr

/-- The transfer that a word starts. -/
def CtrlWord.transfer (word : CtrlWord) : Transfer :=
  if word.clr then .idle
  else if word.read then .receiving word.port
  else if word.write then .sending word.port
  else .idle

/-- The transfers of the buffers. -/
abbrev BufferPool := Fin nbuffers → Transfer

/-- `buffer_pool_ctrl->ctrl = word`. -/
def BufferPool.ctrl (pool : BufferPool) (word : CtrlWord) : BufferPool := fun bufno =>
  if bpcBuffer bufno = word.buffer then word.transfer else pool bufno

def bpsDone (bufno : Fin nbuffers) : UInt32 := 0x00000001 <<< UInt32.ofNat bufno.val

def bpsError (bufno : Fin nbuffers) : UInt32 := 0x00000100 <<< UInt32.ofNat bufno.val

/-- `status & mask`, as a condition. -/
def anyOf (status mask : UInt32) : Bool := status &&& mask != 0

theorem anyOf_or (status mask other : UInt32) :
    anyOf status (mask ||| other) = (anyOf status mask || anyOf status other) := by
  have distributed : status &&& (mask ||| other) = (status &&& mask) ||| (status &&& other) := by
    apply UInt32.toNat_inj.mp
    simp [Nat.and_or_distrib_left]
  rw [Bool.eq_iff_iff]
  simp only [anyOf, distributed, bne_iff_ne, ne_eq, Bool.or_eq_true, UInt32.or_eq_zero_iff]
  tauto

theorem bpcBuffer_inj {bufno other : Fin nbuffers} : bpcBuffer bufno = bpcBuffer other ↔
    bufno = other := by
  rw [bpcBuffer, bpcBuffer, Fin.castLE_inj]

/-! ## What the words do -/

namespace BufferPool

variable (pool : BufferPool) (bufno : Fin nbuffers)

theorem ctrl_eq {word : CtrlWord} (same : word.buffer = bpcBuffer bufno) :
    pool.ctrl word = Function.update pool bufno word.transfer := by
  funext other
  simp only [ctrl, same, bpcBuffer_inj, Function.update_apply]

@[simp] theorem ctrl_clearWord :
    pool.ctrl (clearWord bufno) = Function.update pool bufno .idle :=
  pool.ctrl_eq bufno rfl

@[simp] theorem ctrl_receiveWord (args : BufCmdArgs) :
    pool.ctrl (receiveWord bufno args) =
      Function.update pool bufno (.receiving (bpcPort args.port)) :=
  pool.ctrl_eq bufno rfl

@[simp] theorem ctrl_sendWord (args : BufCmdArgs) (line : UInt32) :
    pool.ctrl ((sendWord bufno args).withLastLine line) =
      Function.update pool bufno (.sending (bpcPort args.port)) :=
  pool.ctrl_eq bufno rfl

end BufferPool

/-! ## Packets -/

/-- What happens between two looks at the status word: the word, the packets that the hardware put
in buffers, the answers of the inspector about them, and the registers. -/
structure PoolEvent (α β : Type) where
  status : UInt32
  packet : Fin nbuffers → α
  inspect : Fin nbuffers → β
  lastLine : Fin nbuffers → UInt32

variable {α β : Type}

/-- The buffer is reported as done. -/
def PoolEvent.done (event : PoolEvent α β) (bufno : Fin nbuffers) : Bool :=
  anyOf event.status (bpsDone bufno)

/-- The buffer is reported with an error. -/
def PoolEvent.error (event : PoolEvent α β) (bufno : Fin nbuffers) : Bool :=
  anyOf event.status (bpsError bufno)

/-- The reports are about transfers: no buffer without one is done or has an error, and none is
both. -/
def PoolEvent.Sound (event : PoolEvent α β) (pool : BufferPool) (buffers : List (Fin nbuffers)) :
    Prop :=
  ∀ bufno ∈ buffers, (event.done bufno = true → pool bufno ≠ .idle ∧ event.error bufno = false) ∧
    (event.error bufno = true → pool bufno ≠ .idle)

instance (event : PoolEvent α β) (pool : BufferPool) (buffers : List (Fin nbuffers)) :
    Decidable (event.Sound pool buffers) :=
  inferInstanceAs (Decidable (∀ bufno ∈ buffers, _))

end GnuRadio.Usrp2
