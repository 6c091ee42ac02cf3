import GnuRadio.Misc.Trace
import GnuRadio.Ofdm.Mapper
import Mathlib.Data.List.SplitBy

/-!
# Runs of the OFDM mapper

Messages come in, and calls of `work` make symbols of them. The symbols from one start flag up to
the next belong to one message.
-/

namespace GnuRadio

namespace OfdmMapper

/-- What happens to a mapper: a message comes in, or `work` is called. -/
inductive Event where
  | insertTail (msg : GrMessage)
  | work (rand : Nat → Nat)

/-- A symbol, and what `rand()` returned in its call. -/
abbrev Made := OfdmSymbol × (Nat → Nat)

variable (nbits carriers : Nat)

/-- One step; it is undefined when `work` fails an assertion. -/
def step (mapper : OfdmMapper) : Event → Option OfdmMapper
  | .insertTail msg => some { mapper with msgq := mapper.msgq ++ [msg] }
  | .work rand => (work nbits carriers rand mapper).toOption.map Prod.snd

def made (mapper : OfdmMapper) : Event → List Made
  | .insertTail _ => []
  | .work rand =>
    match work nbits carriers rand mapper with
    | .ok (.symbol symbol, _) => [(symbol, rand)]
    | _ => []

/-- The messages that came in. -/
def inserted (events : List Event) : List GrMessage :=
  events.filterMap fun
    | .insertTail msg => some msg
    | .work _ => none

/-- The messages up to the first one that ends everything. -/
def served : List GrMessage → List GrMessage
  | [] => []
  | msg :: msgs => if msg.type = 1 then [msg] else msg :: served msgs

/-- Symbols from one start flag up to the next. -/
def sections (symbols : List Made) : List (List Made) :=
  symbols.splitBy fun _ next => !next.1.flag

/-- The values on the carriers of some symbols. -/
def onCarriers (symbols : List Made) : List Nat := symbols.flatMap fun symbol => symbol.1.values

/-- The carriers hold these values, and random ones behind them on the last symbol. -/
def Holds (symbols : List Made) (values : List Nat) : Prop :=
  ∃ i rand, symbols.getLast?.map Prod.snd = some rand ∧
    onCarriers symbols = values ++ (List.range' i (carriers - i)).map (randsym nbits rand)

/-- Nothing is left to send, or the mapper is at its end. -/
def Through (mapper : OfdmMapper) : Prop := mapper.msg = none ∧ (mapper.msgq = [] ∨ mapper.eof)

/-- The carriers hold every bit of every message, each message in symbols of its own. -/
structure EmitsAll (msgs : List GrMessage) (symbols : List Made) (mapper : OfdmMapper) : Prop where
  started : ∀ symbol ∈ symbols.head?, symbol.1.flag = true
  count : (sections symbols).length ≤ (served msgs).length
  all : mapper.Through → (sections symbols).length = (served msgs).length
  whole : ∀ k msg section', (served msgs)[k]? = some msg → (sections symbols)[k]? = some section' →
    (k + 1 < (sections symbols).length ∨ mapper.msg = none) →
    ∃ values pad, wordBits nbits values = byteBitsLE msg.msg ++ List.replicate pad false ∧
      pad < nbits ∧ Holds nbits carriers section' values
  part : ∀ k msg section', (served msgs)[k]? = some msg → (sections symbols)[k]? = some section' →
    ¬(k + 1 < (sections symbols).length ∨ mapper.msg = none) →
    wordBits nbits (onCarriers section') <+: byteBitsLE msg.msg

/-- The first symbol alone has the flag. -/
def Flagged (symbols : List Made) : Prop :=
  ∃ start rest, symbols = start :: rest ∧ start.1.flag = true ∧ ∀ symbol ∈ rest,
    symbol.1.flag = false

variable {nbits carriers}

theorem sections_flagged {symbols : List Made} (flagged : Flagged symbols) :
    sections symbols = [symbols] := by
  obtain ⟨start, rest, rfl, -, others⟩ := flagged
  apply List.splitBy_of_isChain (List.cons_ne_nil start rest)
  induction rest generalizing start with
  | nil => exact List.isChain_singleton start
  | cons next rest ih =>
    rw [List.isChain_cons_cons]
    constructor
    · simp [others next List.mem_cons_self]
    · apply ih
      intro symbol member
      exact others symbol (List.mem_cons_of_mem next member)

theorem sections_append (symbols : List Made) {more : List Made} (flagged : Flagged more) :
    sections (symbols ++ more) = sections symbols ++ [more] := by
  rw [← sections_flagged flagged]
  obtain ⟨start, rest, rfl, first, -⟩ := flagged
  apply List.splitBy_append_cons
  intro symbol _
  simp [first]

theorem sections_flatten {groups : List (List Made)} (flagged : ∀ group ∈ groups, Flagged group) :
    sections groups.flatten = groups := by
  induction groups using List.reverseRecOn with
  | nil => rfl
  | append_singleton groups group ih =>
    rw [List.forall_mem_append, List.forall_mem_singleton] at flagged
    rw [List.flatten_append, List.flatten_singleton, sections_append _ flagged.2, ih flagged.1]

/-- A message and the symbols that were made of it. -/
structure Complete (nbits carriers : Nat) (msg : GrMessage) (symbols : List Made) : Prop where
  flagged : Flagged symbols
  values : ∃ values rest, Sent nbits msg.msg values rest ∧ Holds nbits carriers symbols values

/-- The symbols of the message in hand, and what the mapper knows of it. -/
structure Busy (nbits : Nat) (msg : GrMessage) (current : List Made) (mapper : OfdmMapper) :
    Prop where
  flagged : Flagged current
  sending : Sending nbits msg.msg (onCarriers current) mapper
  unfinished : mapper.msgOffset < msg.msg.length
  pendingFlag : mapper.pendingFlag = false
  eof : mapper.eof = false

/-- What was sent, message by message, and what is being sent. -/
structure History (nbits carriers : Nat) (msgs : List GrMessage) (symbols : List Made)
    (mapper : OfdmMapper) (groups : List (GrMessage × List Made)) (current : List Made) :
    Prop where
  symbols : symbols = (groups.map Prod.snd).flatten ++ current
  msgs : msgs = groups.map Prod.fst ++ mapper.msg.toList ++ mapper.msgq
  complete : ∀ group ∈ groups, Complete nbits carriers group.1 group.2
  idle : mapper.msg = none → mapper.nresid = 0 ∧ current = []
  busy : ∀ msg, mapper.msg = some msg → Busy nbits msg current mapper
  served : ∀ more, served (groups.map Prod.fst ++ more) =
    groups.map Prod.fst ++ if mapper.eof then [] else served more

theorem History.init : History nbits carriers [] [] OfdmMapper.init [] [] where
  symbols := rfl
  msgs := rfl
  complete := List.forall_mem_nil _
  idle := fun _ => ⟨rfl, rfl⟩
  busy := fun _ now => nomatch now
  served := fun _ => rfl

section
variable {msgs : List GrMessage} {symbols : List Made} {mapper : OfdmMapper}
  {groups : List (GrMessage × List Made)} {current : List Made}

theorem History.insertTail (history : History nbits carriers msgs symbols mapper groups current)
    (msg : GrMessage) :
    History nbits carriers (msgs ++ [msg]) symbols { mapper with msgq := mapper.msgq ++ [msg] }
      groups current where
  symbols := history.symbols
  msgs := by rw [history.msgs, List.append_assoc]
  complete := history.complete
  idle := history.idle
  busy := fun msg now =>
    have busy := history.busy msg now
    ⟨busy.flagged, ⟨busy.sending.inside, busy.sending.bitOffset, busy.sending.nresid,
      busy.sending.resid, busy.sending.whole, busy.sending.byte, busy.sending.small,
      busy.sending.bits⟩, busy.unfinished, busy.pendingFlag, busy.eof⟩
  served := history.served

def remaining (mapper : OfdmMapper) : Nat :=
  (mapper.msgq.map fun msg => 8 * msg.msg.length + 1).sum +
    match mapper.msg with
    | none => 0
    | some msg => 8 * msg.msg.length + 1 - mapper.read

theorem flagged_append {rand : Nat → Nat} {pendingFlag : Bool} (values : List Nat)
    (flags : current = [] ∧ pendingFlag = true ∨ Flagged current ∧ pendingFlag = false) :
    Flagged (current ++ [(⟨pendingFlag, values⟩, rand)]) := by
  obtain ⟨rfl, rfl⟩ | ⟨⟨start, rest, rfl, first, others⟩, rfl⟩ := flags
  · exact ⟨_, [], rfl, rfl, List.forall_mem_nil _⟩
  · refine ⟨start, rest ++ [(⟨false, values⟩, rand)], rfl, first, ?_⟩
    rw [List.forall_mem_append, List.forall_mem_singleton]
    exact ⟨others, rfl⟩

theorem History.makeSymbol (width : nbits ≤ 8) (used : 0 < carriers) {msg : GrMessage}
    (sending : Sending nbits msg.msg (onCarriers current) mapper)
    (shown : symbols = (groups.map Prod.snd).flatten ++ current)
    (came : msgs = groups.map Prod.fst ++ msg :: mapper.msgq)
    (complete : ∀ group ∈ groups, Complete nbits carriers group.1 group.2)
    (servedSoFar : ∀ more, OfdmMapper.served (groups.map Prod.fst ++ more) =
      groups.map Prod.fst ++ OfdmMapper.served more)
    (now : mapper.msg = some msg) (running : mapper.eof = false)
    (flags : current = [] ∧ mapper.pendingFlag = true ∨
      Flagged current ∧ mapper.pendingFlag = false) (rand : Nat → Nat) :
    ∃ symbol next groups' current',
      OfdmMapper.makeSymbol nbits carriers rand msg mapper = .ok (.symbol symbol, next) ∧
      History nbits carriers msgs (symbols ++ [(symbol, rand)]) next groups' current' ∧
      next.remaining < mapper.remaining := by
  have bound := sending.read_le
  obtain ⟨own, next, msgq, flag, room,
    ⟨made, onwards, still, eof, unfinished, full⟩ | ⟨made, idle, eof, rest, sent⟩⟩ :=
    @makeSymbol_spec nbits carriers mapper width msg (onCarriers current) sending now rand
  · refine ⟨_, next, groups, current ++ [(⟨mapper.pendingFlag, own⟩, rand)], made, ?_, ?_⟩
    · refine ⟨?_, ?_, complete, ?_, ?_, ?_⟩
      · rw [shown, List.append_assoc]
      · rw [came, msgq, still]
        simp
      · intro none
        rw [still] at none
        cases none
      · intro other same
        obtain rfl := Option.some.inj (still.symm.trans same)
        refine ⟨flagged_append own flags, ?_, unfinished, flag, eof.trans running⟩
        simpa [onCarriers] using onwards
      · rw [eof, running]
        exact servedSoFar
    · have before := sending.read_eq
      have after := onwards.read_eq
      have short := sending.length_pending
      have more : nbits * (onCarriers current ++ own).length =
          nbits * (onCarriers current).length + nbits * carriers := by
        rw [List.length_append, full, Nat.mul_add]
      have step : nbits ≤ nbits * carriers := Nat.le_mul_of_pos_right nbits used
      rw [remaining, remaining, msgq, still, now]
      dsimp only
      omega
  · generalize random : (List.range' own.length (carriers - own.length)).map (randsym nbits rand) =
      fills at made
    refine ⟨_, next, groups ++ [(msg, current ++ [(⟨mapper.pendingFlag, own ++ fills⟩, rand)])], [],
      made, ?_, ?_⟩
    · refine ⟨?_, ?_, ?_, fun _ => ⟨idle.nresid, rfl⟩, ?_, ?_⟩
      · simp [shown]
      · simp [came, msgq, idle.msg]
      · rw [List.forall_mem_append, List.forall_mem_singleton]
        refine ⟨complete, flagged_append _ flags, _, rest, sent, own.length, rand, ?_, ?_⟩
        · simp
        · simp [onCarriers, random]
      · intro other same
        rw [idle.msg] at same
        cases same
      · intro more
        rw [List.map_append, List.append_assoc, servedSoFar, List.map_singleton,
          List.singleton_append, OfdmMapper.served, eof, running, Bool.false_or]
        by_cases last : msg.type = 1
        · simp [last]
        · simp [last]
    · rw [remaining, remaining, msgq, idle.msg, now]
      dsimp only
      omega

theorem History.work (width : nbits ≤ 8) (positive : 0 < nbits) (used : 0 < carriers)
    (history : History nbits carriers msgs symbols mapper groups current)
    (nonempty : ∀ msg ∈ msgs, msg.msg ≠ []) (rand : Nat → Nat) :
    ∃ result next groups' current',
      OfdmMapper.work nbits carriers rand mapper = .ok (result, next) ∧
      History nbits carriers msgs (symbols ++ made nbits carriers mapper (.work rand)) next
        groups' current' ∧
      (mapper.Through ∧ next = mapper ∨
        ¬mapper.Through ∧ next.remaining < mapper.remaining) := by
  rw [made]
  by_cases ended : mapper.eof = true
  · have idle : mapper.msg = none := by
      cases now : mapper.msg with
      | none => rfl
      | some msg => exact absurd ended (Bool.eq_false_iff.mp (history.busy msg now).eof)
    have stays : OfdmMapper.work nbits carriers rand mapper = .ok (.done, mapper) := if_pos ended
    rw [stays, List.append_nil]
    exact ⟨_, _, groups, current, rfl, history, Or.inl ⟨⟨idle, Or.inr ended⟩, rfl⟩⟩
  · have servedSoFar := history.served
    simp only [if_neg ended] at servedSoFar
    cases now : mapper.msg with
    | some msg =>
      have busy := history.busy msg now
      have came : msgs = groups.map Prod.fst ++ msg :: mapper.msgq := by
        simp [history.msgs, now]
      have goes : OfdmMapper.work nbits carriers rand mapper =
          OfdmMapper.makeSymbol nbits carriers rand msg mapper := by
        rw [OfdmMapper.work, if_neg ended, now]
      obtain ⟨symbol, next, groups', current', made, after, less⟩ :=
        History.makeSymbol width used busy.sending history.symbols came history.complete
          servedSoFar now busy.eof (Or.inr ⟨busy.flagged, busy.pendingFlag⟩) rand
      rw [goes, made]
      refine ⟨_, _, groups', current', rfl, after, Or.inr ⟨fun through => ?_, less⟩⟩
      rw [through.1] at now
      cases now
    | none =>
      obtain ⟨noResidual, rfl⟩ := history.idle now
      cases waiting : mapper.msgq with
      | nil =>
        have waits : OfdmMapper.work nbits carriers rand mapper = .ok (.waits, mapper) := by
          rw [OfdmMapper.work, if_neg ended, now, waiting]
        rw [waits, List.append_nil]
        exact ⟨_, _, groups, [], rfl, history, Or.inl ⟨⟨now, Or.inl waiting⟩, rfl⟩⟩
      | cons msg msgq =>
        have came : msgs = groups.map Prod.fst ++ msg :: msgq := by
          simp [history.msgs, now, waiting]
        have more : msg.msg ≠ [] := nonempty msg (by simp [came])
        have noMessage : ¬(msg.msg.length = 0 ∧ msg.type = 1) := by
          simp [more]
        have goes : OfdmMapper.work nbits carriers rand mapper =
            OfdmMapper.makeSymbol nbits carriers rand msg
              { mapper with
                msgq
                msg := some msg
                msgOffset := 0
                bitOffset := 0
                pendingFlag := true } := by
          rw [OfdmMapper.work, if_neg ended, now, waiting]
          exact if_neg noMessage
        have sending : Sending nbits msg.msg (onCarriers [])
            { mapper with
              msgq
              msg := some msg
              msgOffset := 0
              bitOffset := 0
              pendingFlag := true } := by
          refine ⟨Nat.zero_le _, Nat.zero_lt_succ 7, noResidual ▸ positive, ?_, fun _ => rfl, ?_,
            List.forall_mem_nil _, ?_⟩
          · simp [noResidual]
          · simp
          · simp [pending, noResidual, onCarriers, byteBitsLE]
        obtain ⟨symbol, next, groups', current', made, after, less⟩ :=
          History.makeSymbol width used sending history.symbols came history.complete servedSoFar
            rfl (Bool.eq_false_iff.mpr ended) (Or.inl ⟨rfl, rfl⟩) rand
        rw [goes, made]
        refine ⟨_, _, groups', current', rfl, after, Or.inr ⟨fun through => ?_, less.trans_le ?_⟩⟩
        · apply through.2.elim
          · rw [waiting]
            exact List.cons_ne_nil msg msgq
          · exact ended
        · simp [remaining, read, now, waiting]
          omega

end

theorem inserted_insertTail (events : List Event) (msg : GrMessage) :
    inserted (events ++ [.insertTail msg]) = inserted events ++ [msg] := by
  simp [inserted]

theorem inserted_work (events : List Event) (rand : Nat → Nat) :
    inserted (events ++ [.work rand]) = inserted events := by
  simp [inserted]

theorem inserted_append (events more : List Event) :
    inserted (events ++ more) = inserted events ++ inserted more :=
  List.filterMap_append

theorem inserted_map_insertTail (msgs : List GrMessage) :
    inserted (msgs.map Event.insertTail) = msgs := by
  induction msgs with
  | nil => rfl
  | cons msg msgs ih => exact congrArg (msg :: ·) ih

theorem inserted_replicate_work (calls : Nat) (rand : Nat → Nat) :
    inserted (List.replicate calls (.work rand)) = [] := by
  induction calls with
  | zero => rfl
  | succ calls ih => exact ih

theorem work_of_mem_observed {events : List Event} {mapper : OfdmMapper} {symbol : Made}
    (member : symbol ∈ observed (made nbits carriers) (step nbits carriers) mapper events) :
    Event.work symbol.2 ∈ events := by
  obtain ⟨before, event, inside, seen⟩ := exists_of_mem_observed member
  cases event with
  | insertTail msg => cases seen
  | work rand =>
    rw [made] at seen
    split at seen
    · obtain rfl := List.mem_singleton.mp seen
      exact inside
    · cases seen

/-- No assertion fails in a run in which no message is empty. -/
theorem run_history_exists (width : nbits ≤ 8) (positive : 0 < nbits) (used : 0 < carriers)
    (events : List Event) (nonempty : ∀ msg ∈ inserted events, msg.msg ≠ []) :
    ∃ mapper groups current, run (step nbits carriers) init events = some mapper ∧
      History nbits carriers (inserted events)
        (observed (made nbits carriers) (step nbits carriers) init events) mapper groups current :=
    by
  induction events using List.reverseRecOn with
  | nil => exact ⟨init, [], [], rfl, History.init⟩
  | append_singleton events event ih =>
    cases event with
    | insertTail msg =>
      rw [inserted_insertTail] at nonempty ⊢
      obtain ⟨mapper, groups, current, reached, history⟩ :=
        ih fun msg member => nonempty msg (List.mem_append_left _ member)
      rw [observed_append reached, observed_singleton, made, List.append_nil]
      exact ⟨_, groups, current, run_append.mpr ⟨mapper, reached, rfl⟩, history.insertTail msg⟩
    | work rand =>
      rw [inserted_work] at nonempty ⊢
      obtain ⟨mapper, groups, current, reached, history⟩ := ih nonempty
      obtain ⟨result, next, groups', current', worked, after, -⟩ :=
        history.work width positive used nonempty rand
      rw [observed_append reached, observed_singleton]
      refine ⟨next, groups', current', run_append.mpr ⟨mapper, reached, ?_⟩, after⟩
      rw [run_cons]
      exact ⟨next, by rw [step, worked]; rfl, rfl⟩

section
variable {msgs : List GrMessage} {symbols : List Made} {mapper : OfdmMapper}
  {groups : List (GrMessage × List Made)} {current : List Made}

section

variable (history : History nbits carriers msgs symbols mapper groups current)
include history

theorem History.sections :
    OfdmMapper.sections symbols =
      groups.map Prod.snd ++ if mapper.msg = none then [] else [current] := by
  have whole : OfdmMapper.sections (groups.map Prod.snd).flatten = groups.map Prod.snd := by
    apply sections_flatten
    intro symbols member
    obtain ⟨group, inside, rfl⟩ := List.mem_map.mp member
    exact (history.complete group inside).flagged
  rw [history.symbols]
  cases now : mapper.msg with
  | none => simp [(history.idle now).2, whole]
  | some msg => simp [sections_append _ (history.busy msg now).flagged, whole]

theorem History.head_flag : ∀ symbol ∈ symbols.head?, symbol.1.flag = true := by
  intro symbol member
  rw [history.symbols] at member
  have flag {symbols : List Made} (flagged : Flagged symbols) :
      ∀ symbol ∈ symbols.head?, symbol.1.flag = true := by
    obtain ⟨start, rest, rfl, first, -⟩ := flagged
    simpa using first
  cases groups with
  | nil =>
    cases now : mapper.msg with
    | none => simp [(history.idle now).2] at member
    | some msg => exact flag (history.busy msg now).flagged symbol member
  | cons group groups =>
    have flagged := (history.complete group List.mem_cons_self).flagged
    apply flag flagged symbol
    obtain ⟨start, rest, shown, -, -⟩ := flagged
    simpa [shown] using member

theorem History.served_eq :
    OfdmMapper.served msgs = groups.map Prod.fst ++
      if mapper.eof then [] else OfdmMapper.served (mapper.msg.toList ++ mapper.msgq) := by
  rw [history.msgs, List.append_assoc, history.served]

theorem History.emitsAll (fits : ∀ msg ∈ OfdmMapper.served msgs, nbits ∣ 8 * msg.msg.length) :
    EmitsAll nbits carriers msgs symbols mapper := by
  have sections := history.sections
  have servedNow := history.served_eq
  -- an unfinished section belongs to the message behind those of the groups
  have inHand : ∀ msg, mapper.msg = some msg →
      (OfdmMapper.served msgs)[groups.length]? = some msg := by
    intro msg now
    rw [servedNow, (history.busy msg now).eof, now]
    simp only [Bool.false_eq_true, if_false, Option.toList_some, List.singleton_append,
      OfdmMapper.served]
    rw [List.getElem?_append_right (by simp)]
    split <;> simp
  have sectionCount : (OfdmMapper.sections symbols).length =
      groups.length + if mapper.msg = none then 0 else 1 := by
    rw [sections, List.length_append, List.length_map]
    split <;> rfl
  refine ⟨history.head_flag, ?_, ?_, ?_, ?_⟩
  · rw [sectionCount]
    cases now : mapper.msg with
    | none => simp [servedNow]
    | some msg => exact (List.getElem?_eq_some_iff.mp (inHand msg now)).1
  · intro through
    rw [sectionCount, if_pos through.1, servedNow, through.1]
    obtain empty | ended := through.2
    · simp [empty, OfdmMapper.served]
    · simp [ended]
  · intro k msg symbols' servedAt sectionAt finished
    have inside : k < groups.length := by
      have bound := (List.getElem?_eq_some_iff.mp sectionAt).1
      rw [sectionCount] at bound finished
      split at bound
      · exact bound
      · rename_i busy
        simp only [busy, if_false, or_false] at finished
        omega
    rw [sections, List.getElem?_append_left (by simpa using inside), List.getElem?_map,
      List.getElem?_eq_getElem inside] at sectionAt
    have servedAt' := servedAt
    rw [servedNow, List.getElem?_append_left (by simpa using inside), List.getElem?_map,
      List.getElem?_eq_getElem inside] at servedAt'
    cases sectionAt
    cases servedAt'
    obtain ⟨values, rest, sent, holds⟩ := (history.complete _ (List.getElem_mem inside)).values
    have bits := sent.bits
    rw [sent.rest_eq_nil (fits _ (List.mem_of_getElem? servedAt)), List.append_nil] at bits
    refine ⟨values, 0, ?_, Nat.zero_lt_of_lt sent.rest, holds⟩
    rw [List.replicate_zero, List.append_nil, bits]
  · intro k msg symbols' servedAt sectionAt unfinished
    rw [not_or] at unfinished
    obtain ⟨other, now⟩ := Option.ne_none_iff_exists'.mp unfinished.2
    have last : k = groups.length := by
      have bound := (List.getElem?_eq_some_iff.mp sectionAt).1
      have behind := unfinished.1
      rw [sectionCount, if_neg unfinished.2] at bound behind
      omega
    subst last
    obtain rfl := Option.some.inj (servedAt.symm.trans (inHand other now))
    rw [sections, if_neg unfinished.2, List.getElem?_append_right (by simp)] at sectionAt
    have same : current = symbols' := by simpa using sectionAt
    exact same ▸ (history.busy _ now).sending.isPrefix

end

theorem History.run_through (width : nbits ≤ 8) (positive : 0 < nbits) (used : 0 < carriers)
    (history : History nbits carriers msgs symbols mapper groups current)
    (nonempty : ∀ msg ∈ msgs, msg.msg ≠ []) (rand : Nat → Nat) {calls : Nat}
    (enough : mapper.Through ∨ mapper.remaining ≤ calls) :
    ∃ last, run (step nbits carriers) mapper (List.replicate calls (.work rand)) = some last ∧
      last.Through := by
  induction calls generalizing symbols mapper groups current with
  | zero =>
    refine ⟨mapper, rfl, enough.elim id fun none => ?_⟩
    have nothing := Nat.le_zero.mp none
    rw [remaining, Nat.add_eq_zero_iff] at nothing
    cases now : mapper.msg with
    | none =>
      refine ⟨now, Or.inl ?_⟩
      cases waiting : mapper.msgq with
      | nil => rfl
      | cons msg msgq =>
        rw [waiting, List.map_cons, List.sum_cons] at nothing
        omega
    | some msg =>
      have bound := (history.busy msg now).sending.read_le
      simp only [now] at nothing
      omega
  | succ calls ih =>
    obtain ⟨result, next, groups', current', worked, after, progress⟩ :=
      history.work width positive used nonempty rand
    have enough' : next.Through ∨ next.remaining ≤ calls := by
      obtain ⟨through, rfl⟩ | ⟨going, less⟩ := progress
      · exact Or.inl through
      · have bound := enough.resolve_left going
        exact Or.inr (by omega)
    obtain ⟨last, reached, through⟩ := ih after enough'
    refine ⟨last, ?_, through⟩
    rw [List.replicate_succ, run_cons]
    exact ⟨next, by rw [step, worked]; rfl, reached⟩

end

/-- The value that the last bits of a message would make, padded with zeros. -/
def lastBits (nbits : Nat) (bytes : List UInt8) : List Bool :=
  (byteBitsLE bytes).drop (nbits * (8 * bytes.length / nbits)) ++
    List.replicate (nbits - 8 * bytes.length % nbits) false

theorem Sent.lastBits {bytes : List UInt8} {values other fills more : List Nat} {rest : List Bool}
    {pad : Nat} (sent : Sent nbits bytes values rest) (unfit : ¬nbits ∣ 8 * bytes.length)
    (bits : wordBits nbits other = byteBitsLE bytes ++ List.replicate pad false) (short : pad < nbits)
    (same : other ++ more = values ++ fills) :
    ∃ value, fills.head? = some value ∧ bitsLE nbits value = OfdmMapper.lastBits nbits bytes := by
  have positive := Nat.zero_lt_of_lt short
  have lengths := congrArg List.length sent.bits
  have otherLengths := congrArg List.length bits
  simp only [List.length_append, length_wordBits, length_byteBitsLE, List.length_replicate]
    at lengths otherLengths
  have restShort := sent.rest
  have quotient : 8 * bytes.length / nbits = values.length := by
    rw [← lengths, Nat.mul_add_div positive, Nat.div_eq_of_lt restShort, Nat.add_zero]
  have remainder : 8 * bytes.length % nbits = rest.length := by
    rw [← lengths, Nat.mul_add_mod, Nat.mod_eq_of_lt restShort]
  have left : 0 < rest.length := by
    rw [← remainder]
    exact Nat.pos_of_ne_zero fun zero => unfit (Nat.dvd_of_mod_eq_zero zero)
  have one : other.length = values.length + 1 := by
    have more : nbits * values.length < nbits * other.length := by omega
    have fewer : nbits * other.length < nbits * (values.length + 2) := by
      rw [Nat.mul_add]
      omega
    have above := Nat.lt_of_mul_lt_mul_left more
    have below := Nat.lt_of_mul_lt_mul_left fewer
    omega
  have taken : other = values ++ fills.take 1 := by
    have front := congrArg (List.take (values.length + 1)) same
    rwa [← one, List.take_left, one, List.take_length_add_append] at front
  cases fills with
  | nil =>
    rw [List.take_nil, List.append_nil] at taken
    rw [taken] at one
    omega
  | cons value fills =>
    refine ⟨value, rfl, ?_⟩
    rw [taken, wordBits_append, ← sent.bits, List.append_assoc, List.append_cancel_left_eq] at bits
    rw [OfdmMapper.lastBits, quotient, remainder, ← length_wordBits, ← sent.bits, List.drop_left]
    have padding : nbits - rest.length = pad := by
      rw [one, Nat.mul_add] at otherLengths
      omega
    rw [padding, ← bits]
    simp

theorem exists_bitsLE_ne (positive : 0 < nbits) (bits : List Bool) :
    ∃ value, bitsLE nbits (value % 2 ^ nbits) ≠ bits := by
  by_contra all
  push Not at all
  have two : 2 ≤ 2 ^ nbits := Nat.le_self_pow positive.ne' 2
  have same : bitsLE nbits 0 = bitsLE nbits 1 := by
    have zero := all 0
    have one := all 1
    rw [Nat.zero_mod] at zero
    rw [Nat.mod_eq_of_lt two] at one
    exact zero.trans one.symm
  exact absurd (eq_of_bitsLE_eq (by omega) two same) (by decide)

/-- **The mapper.** Every bit of every message is emitted, in symbols of its own message, whatever
`rand()` returns, exactly when the bits of each message that is served fill whole values. -/
theorem emitsAll_iff (bounds : 1 ≤ nbits ∧ nbits ≤ 8) (used : 1 ≤ carriers)
    {msgs : List GrMessage} (nonempty : ∀ msg ∈ msgs, msg.msg ≠ []) :
    (∀ events, inserted events = msgs →
      ∃ mapper, run (step nbits carriers) init events = some mapper ∧
        EmitsAll nbits carriers msgs
          (observed (made nbits carriers) (step nbits carriers) init events) mapper) ↔
      ∀ msg ∈ OfdmMapper.served msgs, nbits ∣ 8 * msg.msg.length := by
  constructor
  · intro emits msg member
    by_contra unfit
    obtain ⟨value, clash⟩ := exists_bitsLE_ne bounds.1 (lastBits nbits msg.msg)
    -- all messages come in, and then `work` is called until nothing is left to do
    obtain ⟨start, _, _, loaded, waiting⟩ :=
      run_history_exists bounds.2 bounds.1 used (msgs.map Event.insertTail)
        (by rwa [inserted_map_insertTail])
    rw [inserted_map_insertTail] at waiting
    obtain ⟨last, finished, through⟩ := waiting.run_through bounds.2 bounds.1 used nonempty
      (fun _ => value) (Or.inr le_rfl)
    have came : inserted (msgs.map Event.insertTail ++
        List.replicate start.remaining (.work fun _ => value)) = msgs := by
      rw [inserted_append, inserted_map_insertTail, inserted_replicate_work, List.append_nil]
    have reached := run_append.mpr ⟨start, loaded, finished⟩
    obtain ⟨mapper, reached', emitted⟩ := emits _ came
    obtain rfl := Option.some.inj (reached.symm.trans reached')
    obtain ⟨mapper, groups, current, reached'', history⟩ :=
      run_history_exists bounds.2 bounds.1 used _ (came.symm ▸ nonempty)
    obtain rfl := Option.some.inj (reached.symm.trans reached'')
    rw [came] at history
    have served : OfdmMapper.served msgs = groups.map Prod.fst := by
      rw [history.served_eq, through.1]
      obtain empty | ended := through.2
      · simp [empty, OfdmMapper.served]
      · simp [ended]
    rw [served] at member
    obtain ⟨group, inside, rfl⟩ := List.mem_map.mp member
    obtain ⟨k, bound, rfl⟩ := List.getElem_of_mem inside
    obtain ⟨values, rest, sent, i, rand, drawn, shown⟩ := (history.complete _ inside).values
    obtain ⟨other, pad, bits, short, j, rand', drawn', shown'⟩ :=
      emitted.whole k groups[k].1 groups[k].2 (by simp [served, bound])
        (by simp [history.sections, through.1, bound]) (Or.inr through.1)
    obtain ⟨first, drawnFirst, wanted⟩ := sent.lastBits unfit bits short (shown'.symm.trans shown)
    -- the random value is the chosen one, as in every call
    obtain ⟨symbol, lastOf, rfl⟩ := Option.map_eq_some_iff.mp drawn
    have seen : symbol ∈ observed (made nbits carriers) (step nbits carriers) init
        (msgs.map Event.insertTail ++ List.replicate start.remaining (.work fun _ => value)) := by
      rw [history.symbols]
      apply List.mem_append_left
      exact List.mem_flatten_of_mem (List.mem_map_of_mem inside) (List.mem_of_getLast? lastOf)
    have drawnFrom := work_of_mem_observed seen
    rw [List.mem_append] at drawnFrom
    obtain isInsert | isWork := drawnFrom
    · obtain ⟨msg, -, same⟩ := List.mem_map.mp isInsert
      cases same
    · have same := Event.work.inj (List.eq_of_mem_replicate isWork)
      obtain ⟨x, -, rfl⟩ := List.mem_map.mp (List.mem_of_head? drawnFirst)
      rw [randsym, same] at wanted
      exact clash wanted
  · intro fits events came
    obtain ⟨mapper, groups, current, reached, history⟩ :=
      run_history_exists bounds.2 bounds.1 used events (came ▸ nonempty)
    rw [came] at history
    exact ⟨mapper, reached, history.emitsAll fits⟩

/-- Two bytes as four values on two symbols. -/
theorem emitsAll_iff_nibbles :
    ∃ mapper, run (step 4 2) init [.insertTail ⟨0, 0, 0, [0x21, 0x43]⟩, .work fun _ => 0,
        .work fun _ => 0] = some mapper ∧
      EmitsAll 4 2 [⟨0, 0, 0, [0x21, 0x43]⟩]
        (observed (made 4 2) (step 4 2) init [.insertTail ⟨0, 0, 0, [0x21, 0x43]⟩,
          .work fun _ => 0, .work fun _ => 0]) mapper :=
  (emitsAll_iff (by decide) (by decide) (by decide)).mpr (by decide) _ rfl

/-- A byte as values of three bits: its last two bits are not emitted. -/
theorem last_bits_lost :
    ¬∀ events, inserted events = [⟨0, 0, 0, [0xff]⟩] →
      ∃ mapper, run (step 3 2) init events = some mapper ∧
        EmitsAll 3 2 [⟨0, 0, 0, [0xff]⟩] (observed (made 3 2) (step 3 2) init events) mapper := by
  intro emits
  obtain ⟨mapper, reached, emitted⟩ :=
    emits [.insertTail ⟨0, 0, 0, [0xff]⟩, .work fun _ => 0, .work fun _ => 0] rfl
  have idle : mapper.msg = none := by
    cases reached
    rfl
  obtain ⟨values, pad, bits, short, i, rand, -, shown⟩ := emitted.whole 0 ⟨0, 0, 0, [0xff]⟩
    [(⟨true, [7, 7]⟩, fun _ => 0), (⟨false, [0, 0]⟩, fun _ => 0)] rfl rfl (Or.inr idle)
  have three : values.length = 3 := by
    have lengths := congrArg List.length bits
    simp only [length_wordBits, List.length_append, length_byteBitsLE, List.length_replicate,
      List.length_singleton] at lengths
    omega
  have taken : values = [7, 7, 0] := by
    have front := congrArg (List.take 3) shown
    rw [← three, List.take_left, three] at front
    exact front.symm
  rw [taken] at bits
  have pads : pad = 1 := by
    have lengths := congrArg List.length bits
    simp [byteBitsLE] at lengths
    omega
  rw [pads] at bits
  exact absurd bits (by decide)

end OfdmMapper

end GnuRadio
