import GnuRadio.Usrp.Fusb
import Mathlib.Data.List.Forall2

/-!
# Request blocks are neither lost nor doubled

A step moves a request block from one place to another. Two places of the code do not: `write`
keeps the block whose submission failed as the work in progress, and `start` takes one more block
from the free list when all of its submissions failed.
-/

namespace GnuRadio.Usrp

namespace Fusb

/-- The part of the buffer of the current `write` that the kernel was given. -/
def sending (s : Fusb) : List UInt8 :=
  match s.pc with
  | .writing src n | .reaping _ _ (.write src n) | .blocked (.write src n) => src.take n
  | .submitting urb (.write src n) => src.take (n - (s.urbs urb).buffer.length)
  | _ => []

/-- Whether `stop` is running: what was not read is given up. -/
def giving : FusbPc → Bool
  | .stopping | .reaping _ _ .cancelled | .reaping _ _ .stop | .blocked .cancelled
  | .blocked .stop => true
  | _ => false

/-- What the code relies on where it is. -/
def AtPc (s : Fusb) : Prop :=
  match s.pc with
  | .idle | .waiting | .reaping _ _ .waitForCompletion | .blocked .waitForCompletion => True
  | .starting nerrors => s.d_input_p = true ∧ (0 < s.d_nblocks → nerrors < s.d_nblocks)
  | .submitting _ (.start nerrors) => s.d_input_p = true ∧ nerrors < s.d_nblocks
  | .reading .. => s.d_input_p = true
  | .writing src n | .reaping _ _ (.write src n) | .blocked (.write src n) =>
      s.d_input_p = false ∧ n ≤ src.length
  | .submitting urb (.write src n) => s.d_input_p = false ∧ n ≤ src.length ∧
      s.d_write_work_in_progress = some urb ∧ s.sending ++ (s.urbs urb).buffer = src.take n
  | .submitting _ (.reload ..) | .reloading .. | .reaping _ _ (.reload ..)
  | .blocked (.reload ..) => s.d_input_p = true ∧ s.d_read_work_in_progress = none
  | .stopping | .reaping _ _ .cancelled | .blocked .cancelled => s.d_read_work_in_progress = none
  | .reaping _ nreaped .stop =>
      s.d_read_work_in_progress = none ∧ (nreaped = 0 → s.d_completed_list = [])
  | .blocked .stop => s.d_read_work_in_progress = none ∧ s.d_completed_list = []

/-- What holds in every state of a run. -/
structure Sound (s : Fusb) : Prop where
  onePlace : ∀ urb, s.places urb = if urb < s.d_nblocks then 1 else 0
  flight : s.inFlight = s.d_pending_rqsts
  atPc : s.AtPc
  parked : s.d_read_work_in_progress = none → s.d_read_buffer = []
  read : s.d_input_p → giving s.pc = false →
    (s.completions.filter (·.1 = 0)).flatMap (·.2) =
      s.bytesRead ++ s.d_read_buffer ++ s.d_completed_list.flatMap s.received
  written : ∃ parts, List.Forall₂ Handed s.writes parts ∧
    s.submitted.flatten = parts.flatten ++ s.sending

theorem sound_initial (d_input_p : Bool) (d_nblocks : Nat) :
    Sound (initial d_input_p d_nblocks) where
  onePlace urb := by
    simp only [places, initial, inHand, List.count_nil, Option.toList_none, Nat.add_zero]
    by_cases less : urb < d_nblocks <;> simp [List.nodup_range.count, less]
  flight := rfl
  atPc := trivial
  parked _ := rfl
  read _ _ := rfl
  written := ⟨[], .nil, rfl⟩

variable {s t : Fusb}

theorem Sound.jump (sound : Sound s) (d_input_p : t.d_input_p = s.d_input_p)
    (urbs : t.urbs = s.urbs) (places : t.places = s.places) (d_nblocks : t.d_nblocks = s.d_nblocks)
    (inFlight : t.inFlight = s.inFlight) (pending : t.d_pending_rqsts = s.d_pending_rqsts)
    (completed : t.d_completed_list = s.d_completed_list)
    (working : t.d_read_work_in_progress = s.d_read_work_in_progress)
    (buffer : t.d_read_buffer = s.d_read_buffer) (completions : t.completions = s.completions)
    (bytesRead : t.bytesRead = s.bytesRead) (writes : t.writes = s.writes)
    (submitted : t.submitted = s.submitted) (sending : t.sending = s.sending)
    (giving : giving t.pc = false → giving s.pc = false) (atPc : t.AtPc) : Sound t where
  onePlace := by
    rw [places, d_nblocks]
    exact sound.onePlace
  flight := by rw [inFlight, pending, sound.flight]
  atPc := atPc
  parked := by
    rw [working, buffer]
    exact sound.parked
  read input running := by
    have received : t.received = s.received := by
      funext urb
      simp [received, urbs]
    rw [completions, bytesRead, buffer, completed, received]
    exact sound.read (d_input_p ▸ input) (giving running)
  written := by
    rw [writes, submitted, sending]
    exact sound.written

/-- The code goes on elsewhere, with the same request blocks in hand. -/
theorem Sound.goTo (sound : Sound s) (pc : FusbPc) (hand : { s with pc }.inHand = s.inHand)
    (sending : { s with pc }.sending = s.sending) (giving : giving pc = false → giving s.pc = false)
    (atPc : { s with pc }.AtPc) : Sound { s with pc } := by
  apply sound.jump <;> try rfl
  · funext urb
    simp [places, hand]
  · exact sending
  · exact giving
  · exact atPc

/-! ## Moving request blocks -/

variable {urb n nreaped : Nat} {nbytes : Int} {src : List UInt8} {ok_to_block_p : Bool}
  {caller : ReapCaller}

@[simp] theorem clear_of_ne {urbs : Nat → UsbdevfsUrb} {other : Nat} (ne : other ≠ urb) :
    clear urbs urb other = urbs other := Function.update_of_ne ne ..

theorem freeList_foldl (s : Fusb) (urbs : List Nat) :
    urbs.foldl freeListAdd s =
      { s with urbs := urbs.foldl clear s.urbs, d_free_list := s.d_free_list ++ urbs } := by
  induction urbs generalizing s with
  | nil => simp
  | cons urb urbs ih =>
    rw [List.foldl_cons, ih]
    simp [freeListAdd]

theorem freeCompleted_eq (s : Fusb) :
    s.freeCompleted = { s with
      urbs := s.d_completed_list.foldl clear s.urbs
      d_free_list := s.d_free_list ++ s.d_completed_list
      d_completed_list := [] } :=
  freeList_foldl ..

theorem places_freeCompleted (s : Fusb) (urb : Nat) : s.freeCompleted.places urb = s.places urb := by
  rw [freeCompleted_eq]
  simp only [places, inHand, List.count_append, List.count_nil]
  omega

theorem flatMap_received {urbs : List Nat} (same : ∀ urb ∈ urbs, t.urbs urb = s.urbs urb) :
    urbs.flatMap t.received = urbs.flatMap s.received := by
  apply List.flatMap_congr
  intro urb member
  rw [received, received, same urb member]

section

variable (sound : Sound s)
include sound

theorem Sound.count_le (urb : Nat) : s.places urb ≤ 1 := by
  rw [sound.onePlace]
  split <;> omega

theorem Sound.not_completed (elsewhere : s.d_completed_list.count urb < s.places urb) :
    urb ∉ s.d_completed_list := by
  intro member
  have one := sound.count_le urb
  have inside := List.count_pos_iff.mpr member
  omega

/-! ## The loops -/

theorem Sound.starting {nerrors : Nat} (here : s.pc = .starting nerrors) :
    Sound (s.starting nerrors) := by
  obtain ⟨input, below⟩ : s.d_input_p = true ∧ (0 < s.d_nblocks → nerrors < s.d_nblocks) := by
    have atPc := sound.atPc
    simpa only [AtPc, here] using atPc
  unfold Fusb.starting
  split
  · exact sound.goTo _ (by simp [inHand, here]) (by simp [sending, here])
      (by simp [here, giving]) trivial
  · rename_i urb rest free
    have positive : 0 < s.d_nblocks := by
      have one := sound.onePlace urb
      simp only [places, free, List.count_cons_self] at one
      split at one <;> omega
    rw [if_pos (below positive)]
    apply sound.jump <;> try rfl
    · funext other
      simp only [places, inHand, here, free, List.count_cons, List.count_nil]
      omega
    · simp [sending, here]
    · simp [here, giving]
    · exact ⟨input, below positive⟩

theorem Sound.waiting (here : s.pc = .waiting) : Sound s.waiting := by
  unfold Fusb.waiting
  apply sound.jump <;> try rfl
  · funext urb
    split <;> simp [places, inHand, here]
  · split <;> simp [sending, here]
  · simp [here, giving]
  · split <;> exact trivial

theorem Sound.stopped (completed : s.d_completed_list = [])
    (working : s.d_read_work_in_progress = none) (here : giving s.pc) : Sound s.stopped where
  onePlace urb := by
    rw [show s.stopped.d_nblocks = s.d_nblocks from rfl, ← sound.onePlace urb]
    have nothing : s.inHand = [] := by
      unfold giving at here
      unfold inHand
      split <;> simp_all
    rw [places, places, nothing]
    rfl
  flight := sound.flight
  atPc := trivial
  parked := sound.parked
  read _ _ := by
    show [] = [] ++ s.d_read_buffer ++ s.d_completed_list.flatMap _
    rw [completed, sound.parked working]
    rfl
  written := by
    obtain ⟨parts, handed, same⟩ := sound.written
    have nothing : s.sending = [] := by
      unfold giving at here
      unfold sending
      split <;> simp_all
    rw [nothing] at same
    exact ⟨parts, handed, same⟩

theorem Sound.stopping (here : s.pc = .stopping) : Sound s.stopping := by
  have working := sound.atPc
  simp only [AtPc, here] at working
  have moved : Sound s.freeCompleted := by
    refine ⟨fun urb => ?_, ?_, ?_, ?_, ?_, ?_⟩
    · rw [places_freeCompleted, freeCompleted_eq]
      exact sound.onePlace urb
    · rw [freeCompleted_eq]
      exact sound.flight
    · simpa only [AtPc, freeCompleted_eq, here] using working
    · rw [freeCompleted_eq]
      exact sound.parked
    · simp [freeCompleted_eq, here, giving]
    · have written := sound.written
      simpa only [freeCompleted_eq, sending, here] using written
  have completed : s.freeCompleted.d_completed_list = [] := by rw [freeCompleted_eq]
  have still : s.freeCompleted.d_read_work_in_progress = none := by rwa [freeCompleted_eq]
  have pc : s.freeCompleted.pc = .stopping := by rwa [freeCompleted_eq]
  unfold Fusb.stopping
  simp only
  split
  · exact moved.stopped completed still (by rw [pc]; rfl)
  · apply moved.jump <;> try rfl
    · funext urb
      simp [places, inHand, pc]
    · simp [sending, pc]
    · simp [giving]
    · exact ⟨still, fun _ => completed⟩

theorem Sound.reading (here : s.pc = .reading nbytes n) : Sound (s.reading nbytes n) := by
  have reads : s.d_input_p = true := by
    have atPc := sound.atPc
    simpa only [AtPc, here] using atPc
  unfold Fusb.reading
  split
  · split
    · rename_i empty
      split
      · rename_i urb working
        have elsewhere : urb ∉ s.d_completed_list := by
          apply sound.not_completed
          simp only [places, working, Option.toList_some, List.count_cons_self]
          omega
        refine ⟨fun other => ?_, sound.flight, ⟨reads, rfl⟩, fun _ => empty, fun input _ => ?_, ?_⟩
        · refine Eq.trans ?_ (sound.onePlace other)
          simp only [places, inHand, here, working, Option.toList_none, Option.toList_some,
            List.count_nil, Nat.add_zero]
        · have read := sound.read input (by rw [here]; rfl)
          rw [read, flatMap_received fun other member => ?_]
          exact (clear_of_ne (ne_of_mem_of_not_mem member elsewhere)).symm
        · have written := sound.written
          simpa only [sending, here] using written
      · rename_i working
        exact sound.goTo _ (by simp [inHand, here]) (by simp [sending, here])
          (by simp [here, giving]) ⟨reads, working⟩
    · refine ⟨fun other => ?_, sound.flight, reads, fun working => ?_, fun input _ => ?_, ?_⟩
      · refine Eq.trans ?_ (sound.onePlace other)
        simp [places, inHand, here]
      · rw [sound.parked working]
        simp
      · have read := sound.read input (by rw [here]; rfl)
        rw [read]
        show _ = s.bytesRead ++ s.d_read_buffer.take _ ++ s.d_read_buffer.drop _ ++ _
        rw [List.append_assoc s.bytesRead (List.take _ _), List.take_append_drop]
        rfl
      · have written := sound.written
        simpa only [sending, here] using written
  · exact sound.goTo _ (by simp [inHand, here]) (by simp [sending, here])
      (by simp [here, giving]) trivial

theorem Sound.reloading (here : s.pc = .reloading nbytes n) : Sound (s.reloading nbytes n) := by
  obtain ⟨reads, working⟩ : s.d_input_p = true ∧ s.d_read_work_in_progress = none := by
    have atPc := sound.atPc
    simpa only [AtPc, here] using atPc
  unfold Fusb.reloading
  split
  · exact sound.goTo _ (by simp [inHand, here]) (by simp [sending, here])
      (by simp [here, giving]) ⟨reads, working⟩
  · rename_i urb rest completed
    have elsewhere : urb ∉ rest := by
      intro member
      have inside := List.count_pos_iff.mpr member
      have one := sound.count_le urb
      simp only [places, completed, List.count_cons_self] at one
      omega
    split
    · rename_i failed
      refine ⟨fun other => ?_, sound.flight, trivial, sound.parked, fun input _ => ?_, ?_⟩
      · refine Eq.trans ?_ (sound.onePlace other)
        simp only [places, inHand, here, completed, freeListAdd, List.count_append, List.count_cons,
          List.count_nil]
        omega
      · refine (sound.read input (by rw [here]; rfl)).trans ?_
        rw [completed, List.flatMap_cons, received, if_neg failed, List.nil_append]
        refine congrArg (_ ++ ·) (flatMap_received fun other member => ?_)
        exact (clear_of_ne (ne_of_mem_of_not_mem member elsewhere)).symm
      · have written := sound.written
        simp only [sending, here] at written
        exact written
    · rename_i succeeded
      refine ⟨fun other => ?_, sound.flight, reads, fun none => ?_, fun input _ => ?_, ?_⟩
      · refine Eq.trans ?_ (sound.onePlace other)
        simp only [places, inHand, here, completed, working, Option.toList_none, Option.toList_some,
          List.count_cons, List.count_nil]
        omega
      · cases none
      · have read := sound.read input (by rw [here]; rfl)
        rw [not_not] at succeeded
        rw [read, completed, List.flatMap_cons, received, if_pos succeeded, sound.parked working,
          List.append_nil, List.append_assoc]
        rfl
      · have written := sound.written
        simpa only [sending, here] using written

/-! ## Calls -/

theorem Sound.fillWrite (here : s.pc = .writing src n) (less : n < src.length)
    (working : s.d_write_work_in_progress = some urb) (done : s.fillWrite urb src n = some t) :
    Sound t := by
  obtain ⟨output, -⟩ : s.d_input_p = false ∧ n ≤ src.length := by
    have atPc := sound.atPc
    simpa only [AtPc, here] using atPc
  unfold Fusb.fillWrite at done
  split at done
  · obtain rfl := Option.some.inj done
    have length : ((src.drop n).take (min (src.length - n) maxBlockSize)).length =
        min (src.length - n) maxBlockSize := by
      rw [List.length_take, List.length_drop]
      omega
    have sending : ({ s with
        urbs := Function.update s.urbs urb { s.urbs urb with
          buffer := (src.drop n).take (min (src.length - n) maxBlockSize) }
        pc := .submitting urb (.write src (n + min (src.length - n) maxBlockSize)) } :
          Fusb).sending = src.take n := by
      simp only [Fusb.sending, Function.update_self, length]
      rw [Nat.add_sub_cancel]
    refine ⟨fun other => ?_, sound.flight, ?_, sound.parked, ?_, ?_⟩
    · refine Eq.trans ?_ (sound.onePlace other)
      simp only [places, inHand, here]
    · refine ⟨output, by omega, working, ?_⟩
      rw [sending]
      simp only [Function.update_self]
      exact List.take_add.symm
    · intro input
      rw [output] at input
      cases input
    · obtain ⟨parts, handed, same⟩ := sound.written
      refine ⟨parts, handed, ?_⟩
      rw [sending]
      simpa only [Fusb.sending, here] using same
  · cases done

theorem Sound.returnWrite {result : Int} (hand : s.inHand = []) (running : giving s.pc = false)
    (handed : Handed (src, result) s.sending) : Sound (s.returnWrite src result) where
  onePlace other := by
    refine Eq.trans ?_ (sound.onePlace other)
    rw [places, places, hand]
    rfl
  flight := sound.flight
  atPc := trivial
  parked := sound.parked
  read input _ := sound.read input running
  written := by
    obtain ⟨parts, all, same⟩ := sound.written
    refine ⟨parts ++ [s.sending], List.rel_append all (.cons handed .nil), ?_⟩
    show s.submitted.flatten = (parts ++ [s.sending]).flatten ++ []
    rw [same, List.flatten_append]
    simp

theorem Sound.writing (here : s.pc = .writing src n) (done : s.writing src n = some t) :
    Sound t := by
  obtain ⟨output, inside⟩ : s.d_input_p = false ∧ n ≤ src.length := by
    have atPc := sound.atPc
    simpa only [AtPc, here] using atPc
  unfold Fusb.writing at done
  split at done
  · rename_i less
    split at done
    · rename_i urb working
      exact sound.fillWrite here less working done
    · rename_i working
      have moved : Sound s.freeCompleted := by
        refine ⟨fun urb => ?_, ?_, ?_, ?_, ?_, ?_⟩
        · rw [places_freeCompleted, freeCompleted_eq]
          exact sound.onePlace urb
        · rw [freeCompleted_eq]
          exact sound.flight
        · simpa only [AtPc, freeCompleted_eq, here] using ⟨output, inside⟩
        · rw [freeCompleted_eq]
          exact sound.parked
        · simp [freeCompleted_eq, output]
        · have written := sound.written
          simpa only [freeCompleted_eq, sending, here] using written
      have pc : s.freeCompleted.pc = .writing src n := by rwa [freeCompleted_eq]
      have still : s.freeCompleted.d_write_work_in_progress = none := by rwa [freeCompleted_eq]
      have output' : s.freeCompleted.d_input_p = false := by rwa [freeCompleted_eq]
      generalize s.freeCompleted = u at moved pc still output' done
      simp only at done
      split at done
      · rename_i urb rest free
        split at done
        · refine Sound.fillWrite (s := { u with
            d_free_list := rest, d_write_work_in_progress := some urb }) ?_ pc less rfl done
          apply moved.jump <;> try rfl
          · funext other
            simp only [places, inHand, pc, free, still, List.count_cons, List.count_nil,
              Option.toList_none, Option.toList_some]
            omega
          · exact id
          · simpa only [AtPc, pc] using ⟨output', inside⟩
        · cases done
      · obtain rfl := Option.some.inj done
        apply moved.jump <;> try rfl
        · funext other
          simp [places, inHand, pc]
        · simp [sending, pc]
        · simp [pc, giving]
        · exact ⟨output', inside⟩
  · obtain rfl := Option.some.inj done
    have same : n = src.length := by omega
    refine sound.returnWrite ?_ ?_ (Or.inl ⟨?_, ?_⟩)
    · simp [inHand, here]
    · simp [giving, here]
    · simp [sending, here, same]
    · simp [same]

/-! ## The kernel -/

theorem Sound.afterReap (here : s.pc = .reaping ok_to_block_p nreaped caller) (ok : Bool)
    (none : ok = false → nreaped = 0) : Sound (s.afterReap caller ok) := by
  have atPc := sound.atPc
  have written := sound.written
  simp only [AtPc, here] at atPc
  cases caller with
  | waitForCompletion | cancelled | reload =>
    cases ok
    all_goals
      apply sound.jump <;> try rfl
      · funext urb
        simp [places, inHand, here, Fusb.afterReap]
      · simp [sending, here, Fusb.afterReap]
      · simp [here, giving, Fusb.afterReap]
      · first
        | exact atPc
        | exact trivial
  | stop =>
    cases ok with
    | false => exact sound.stopped (atPc.2 (none rfl)) atPc.1 (by rw [here]; rfl)
    | true =>
      exact sound.goTo _ (by simp [inHand, here]) (by simp [sending, here])
        (by simp [here, giving]) atPc.1
  | write src n =>
    cases ok with
    | false =>
      refine sound.returnWrite ?_ ?_ (Or.inr ⟨?_, rfl⟩)
      · simp [inHand, here]
      · simp [giving, here]
      · simp only [sending, here]
        exact List.take_prefix ..
    | true =>
      exact sound.goTo _ (by simp [inHand, here]) (by simp [sending, here])
        (by simp [here, giving]) atPc

theorem Sound.again (here : s.pc = .blocked caller) :
    Sound { s with pc := .reaping true 0 caller } := by
  have atPc := sound.atPc
  apply sound.jump <;> try rfl
  · funext urb
    simp [places, inHand, here]
  · cases caller <;> simp [sending, here]
  · cases caller <;> simp [giving, here]
  · cases caller <;> simp_all [AtPc]

theorem Sound.complete (here : s.pc = .reaping ok_to_block_p nreaped caller)
    (mem : urb ∈ s.inFlight) (status : Int) (data : List UInt8) :
    Sound { s.complete urb status data with pc := .reaping ok_to_block_p (nreaped + 1) caller } := by
  have pending := List.count_pos_iff.mpr (sound.flight ▸ mem)
  have elsewhere : urb ∉ s.d_completed_list := by
    apply sound.not_completed
    simp only [places]
    omega
  refine ⟨fun other => ?_, ?_, ?_, sound.parked, fun input running => ?_, ?_⟩
  · refine Eq.trans ?_ (sound.onePlace other)
    simp only [places, inHand, here, Fusb.complete, List.count_append, List.count_erase,
      List.count_cons, List.count_nil]
    by_cases same : urb = other
    · subst same
      simp
      omega
    · simp [same]
  · simp only [Fusb.complete, sound.flight]
  · have atPc := sound.atPc
    simp only [AtPc, here] at atPc
    cases caller with
    | stop => exact ⟨atPc.1, fun zero => absurd zero (Nat.succ_ne_zero _)⟩
    | waitForCompletion | cancelled | write | reload => exact atPc
  · have before : giving s.pc = false := by
      rw [here]
      cases caller <;> simp_all [giving]
    have read := sound.read input before
    simp only [Fusb.complete, List.filter_append, List.flatMap_append, read]
    have kept : s.d_completed_list.flatMap (Fusb.received { s.complete urb status data with
        pc := .reaping ok_to_block_p (nreaped + 1) caller }) =
          s.d_completed_list.flatMap s.received := by
      apply flatMap_received
      intro other member
      exact Function.update_of_ne (ne_of_mem_of_not_mem member elsewhere) ..
    simp only [Fusb.complete] at kept
    rw [kept, List.append_assoc, List.append_assoc, List.append_assoc]
    congr 3
    by_cases succeeded : status = 0 <;> simp [received, succeeded]
  · have written := sound.written
    cases caller
    all_goals
      simp only [sending, here] at written ⊢
      exact written

theorem Sound.submitted (done : s.submitUrb true = some t) : Sound t := by
  unfold submitUrb at done
  split at done
  · rename_i urb caller here _
    obtain rfl := Option.some.inj done
    have atPc := sound.atPc
    have written := sound.written
    have flight : s.inFlight ++ [urb] = s.d_pending_rqsts ++ [urb] := by rw [sound.flight]
    simp only [AtPc, here] at atPc
    cases caller with
    | start nerrors =>
      refine ⟨fun other => ?_, flight, ⟨atPc.1, fun _ => atPc.2⟩, sound.parked, fun input _ => ?_, ?_⟩
      · refine Eq.trans ?_ (sound.onePlace other)
        simp only [places, inHand, here, afterSubmit, List.count_append, List.count_nil]
        omega
      · exact sound.read input (by rw [here]; rfl)
      · simp only [sending, here] at written
        simp only [sending, afterSubmit, atPc.1, if_true]
        exact written
    | write src n =>
      obtain ⟨output, inside, working, whole⟩ := atPc
      refine ⟨fun other => ?_, flight, ⟨output, inside⟩, sound.parked, fun input _ => ?_, ?_⟩
      · refine Eq.trans ?_ (sound.onePlace other)
        simp only [places, inHand, here, working, afterSubmit, List.count_append, List.count_nil,
          Option.toList_none, Option.toList_some]
        omega
      · exact sound.read input (by rw [here]; rfl)
      · obtain ⟨parts, handed, same⟩ := written
        refine ⟨parts, handed, ?_⟩
        simp only [afterSubmit, output]
        show (s.submitted ++ [(s.urbs urb).buffer]).flatten = parts.flatten ++ src.take n
        rw [← whole, List.flatten_append, same, List.append_assoc]
        simp
    | reload nbytes n =>
      refine ⟨fun other => ?_, flight, atPc, sound.parked, fun input _ => ?_, ?_⟩
      · refine Eq.trans ?_ (sound.onePlace other)
        simp only [places, inHand, here, afterSubmit, List.count_append, List.count_nil]
        omega
      · exact sound.read input (by rw [here]; rfl)
      · simp only [sending, here] at written
        simp only [sending, afterSubmit, atPc.1, if_true]
        exact written
  · rename_i no
    cases no
  · cases done

theorem Sound.notSubmitted (met : s.Submits (.submitted false))
    (done : s.submitUrb false = some t) : Sound t := by
  unfold submitUrb at done
  split at done
  · rename_i no
    cases no
  · rename_i urb caller here _
    obtain rfl := Option.some.inj done
    have atPc := sound.atPc
    have written := sound.written
    simp only [AtPc, here] at atPc
    simp only [Submits, mayFail, here] at met
    cases caller with
    | write => cases met
    | start | reload =>
      have elsewhere : urb ∉ s.d_completed_list := by
        apply sound.not_completed
        simp only [places, inHand, here, List.count_cons_self]
        omega
      have place : ∀ other, ({ s.freeListAdd urb with pc := .idle } : Fusb).places other =
          s.places other := by
        intro other
        simp only [places, inHand, here, freeListAdd, List.count_append, List.count_nil]
        omega
      have received : s.d_completed_list.flatMap s.received =
          s.d_completed_list.flatMap (s.freeListAdd urb).received := by
        refine flatMap_received fun other member => ?_
        exact (clear_of_ne (ne_of_mem_of_not_mem member elsewhere)).symm
      have read : s.d_input_p → (s.completions.filter (·.1 = 0)).flatMap (·.2) =
          s.bytesRead ++ s.d_read_buffer ++
            s.d_completed_list.flatMap (s.freeListAdd urb).received := by
        intro input
        rw [sound.read input (by rw [here]; rfl), received]
      simp only [sending, here] at written
      first
        | exact ⟨fun other => (place other).trans (sound.onePlace other), sound.flight,
            ⟨atPc.1, fun _ => of_decide_eq_true met⟩, sound.parked, fun input _ => read input, written⟩
        | exact ⟨fun other => (place other).trans (sound.onePlace other), sound.flight,
            trivial, sound.parked, fun input _ => read input, written⟩
  · cases done

/-! ## Runs -/

theorem Sound.dropWrite (here : s.pc = .idle) (working : s.d_write_work_in_progress = some urb) :
    Sound { s.freeListAdd urb with d_write_work_in_progress := none } := by
  have elsewhere : urb ∉ s.d_completed_list := by
    apply sound.not_completed
    simp only [places, working, Option.toList_some, List.count_cons_self]
    omega
  refine ⟨fun other => ?_, sound.flight, ?_, sound.parked, fun input _ => ?_, ?_⟩
  · refine Eq.trans ?_ (sound.onePlace other)
    simp only [places, inHand, here, working, freeListAdd, List.count_append, List.count_nil,
      Option.toList_none, Option.toList_some]
    omega
  · simp [AtPc, freeListAdd, here]
  · refine (sound.read input (by rw [here]; rfl)).trans ?_
    refine congrArg (_ ++ ·) (flatMap_received fun other member => ?_)
    exact (clear_of_ne (ne_of_mem_of_not_mem member elsewhere)).symm
  · have written := sound.written
    simp only [sending, freeListAdd, here] at written ⊢
    exact written

theorem Sound.dropRead (here : s.pc = .idle) :
    Sound { (match s.d_read_work_in_progress with
      | some urb => { s.freeListAdd urb with d_read_work_in_progress := none, d_read_buffer := [] }
      | none => s) with pc := .reaping false 0 .cancelled } := by
  have written := sound.written
  split
  · rename_i urb working
    refine ⟨fun other => ?_, sound.flight, rfl, fun _ => rfl, fun _ running => ?_, ?_⟩
    · refine Eq.trans ?_ (sound.onePlace other)
      simp only [places, inHand, here, working, freeListAdd, List.count_append, List.count_nil,
        Option.toList_none, Option.toList_some]
      omega
    · cases running
    · simp only [sending, freeListAdd, here] at written ⊢
      exact written
  · rename_i working
    refine ⟨fun other => ?_, sound.flight, working, sound.parked, fun _ running => ?_, ?_⟩
    · refine Eq.trans ?_ (sound.onePlace other)
      simp only [places, inHand, here]
    · cases running
    · simp only [sending, here] at written ⊢
      exact written

theorem Sound.stop (here : s.pc = .idle) : Sound s.stop := by
  unfold Fusb.stop
  split
  · exact sound
  · cases working : s.d_write_work_in_progress with
    | none => exact sound.dropRead here
    | some urb => exact (sound.dropWrite here working).dropRead here

theorem Sound.call (here : s.pc = .idle) {c : FusbCall} (done : s.call c = some t) : Sound t := by
  have written := sound.written
  simp only [sending, here] at written
  cases c with
  | start =>
    obtain rfl := Option.some.inj done
    unfold Fusb.start
    split
    · exact sound
    · apply sound.jump <;> try rfl
      · funext urb
        split <;> simp [places, inHand, here]
      · split <;> simp [sending, here]
      · simp [here, giving]
      · split
        · rename_i input
          exact ⟨input, id⟩
        · exact trivial
  | stop =>
    obtain rfl := Option.some.inj done
    exact sound.stop here
  | write src =>
    have rejected : Sound (s.returnWrite src (-1)) := by
      refine sound.returnWrite ?_ ?_ (Or.inr ⟨?_, rfl⟩)
      · simp [inHand, here]
      · simp [giving, here]
      · simp [sending, here]
    simp only [Fusb.call, Fusb.write] at done
    split at done
    · exact Option.some.inj done ▸ rejected
    · split at done
      · exact Option.some.inj done ▸ rejected
      · rename_i output
        split at done
        · obtain rfl := Option.some.inj done
          exact sound.goTo _ (by simp [inHand, here]) (by simp [sending, here])
            (by simp [here, giving]) ⟨by simpa using output, Nat.zero_le _⟩
        · cases done
  | read nbytes =>
    obtain rfl := Option.some.inj done
    unfold Fusb.read
    split
    · exact sound
    · split
      · exact sound
      · rename_i input
        exact sound.goTo _ (by simp [inHand, here]) (by simp [sending, here])
          (by simp [here, giving]) (not_not.mp input)
  | waitForCompletion =>
    obtain rfl := Option.some.inj done
    exact sound.goTo _ (by simp [inHand, here]) (by simp [sending, here])
      (by simp [here, giving]) trivial

theorem Sound.go (done : s.go = some t) : Sound t := by
  unfold Fusb.go at done
  split at done
  · rename_i here
    exact Option.some.inj done ▸ sound.starting here
  · rename_i here
    exact sound.writing here done
  · rename_i here
    exact Option.some.inj done ▸ sound.reading here
  · rename_i here
    exact Option.some.inj done ▸ sound.reloading here
  · rename_i here
    exact Option.some.inj done ▸ sound.stopping here
  · rename_i here
    exact Option.some.inj done ▸ sound.waiting here
  · cases done

theorem Sound.reaped {status : Int} {data : List UInt8} (done : s.reaped urb status data = some t) :
    Sound t := by
  unfold Fusb.reaped at done
  split at done
  · rename_i mem
    split at done
    · rename_i here
      exact Option.some.inj done ▸ sound.complete here mem status data
    · rename_i caller here
      obtain rfl := Option.some.inj done
      have completed := (sound.again here).complete rfl mem status data
      have returned := completed.afterReap rfl true (by simp)
      cases caller <;> exact returned
    · cases done
  · cases done

theorem Sound.notReaped (done : s.notReaped = some t) : Sound t := by
  unfold Fusb.notReaped at done
  split at done
  · rename_i ok nreaped caller here
    split at done
    · exact Option.some.inj done ▸ sound.afterReap here true (by simp)
    · rename_i none
      have zero : nreaped = 0 := by omega
      split at done
      · obtain rfl := Option.some.inj done
        have atPc := sound.atPc
        simp only [AtPc, here] at atPc
        apply sound.jump <;> try rfl
        · funext urb
          simp [places, inHand, here]
        · cases caller <;> simp [sending, here]
        · cases caller <;> simp [giving, here]
        · cases caller with
          | stop => exact ⟨atPc.1, atPc.2 zero⟩
          | waitForCompletion | cancelled | write | reload => exact atPc
      · exact Option.some.inj done ▸ sound.afterReap here false fun _ => zero
  · rename_i caller here
    obtain rfl := Option.some.inj done
    have returned := (sound.again here).afterReap rfl false fun _ => rfl
    cases caller <;> exact returned
  · cases done

theorem Sound.step {event : FusbEvent} (met : s.Submits event) (next : fusbStep s event = some t) :
    Sound t := by
  cases event with
  | call c =>
    simp only [fusbStep] at next
    split at next
    · rename_i here
      exact sound.call here next
    · cases next
  | go => exact sound.go next
  | submitted ok =>
    cases ok with
    | true => exact sound.submitted next
    | false => exact sound.notSubmitted met next
  | reaped urb status data => exact sound.reaped next
  | notReaped => exact sound.notReaped next

theorem Sound.accounted : s.Accounted where
  onePlace := sound.onePlace
  read input here := sound.read input (by rw [here]; rfl)
  written here := by
    obtain ⟨parts, handed, same⟩ := sound.written
    simp only [sending, here, List.append_nil] at same
    exact ⟨parts, handed, same⟩

end

end Fusb

/-- Request blocks are neither lost nor doubled, and their data is in order, as long as the kernel takes
what `write` submits and not less than one of the blocks that a `start` submits. -/
theorem fusb_accounted (d_input_p : Bool) (d_nblocks : Nat) {events : List FusbEvent} {s : Fusb}
    (met : Throughout Fusb.Submits fusbStep (.initial d_input_p d_nblocks) events)
    (reached : run fusbStep (.initial d_input_p d_nblocks) events = some s) : s.Accounted :=
  (run_invariant_of Fusb.Sound (fun _ _ _ sound met next => sound.step met next)
    (Fusb.sound_initial d_input_p d_nblocks) met reached).accounted

namespace Fusb

/-- `start` with two request blocks, and a `read` of three bytes: the second block completes first. -/
def readRun : List FusbEvent :=
  [.call .start, .go, .submitted true, .go, .submitted true, .go, .call (.read 3), .go, .go,
    .reaped 1 0 [1, 2], .notReaped, .go, .go, .go, .submitted true, .go, .notReaped,
    .reaped 0 0 [3, 4], .go, .go, .go]

theorem fusb_accounted_read : ∃ s, run fusbStep (initial true 2) readRun = some s ∧
    s.bytesRead = [1, 2, 3] ∧ s.d_read_buffer = [4] ∧ s.Accounted := by
  have ran : (run fusbStep (initial true 2) readRun).map (fun s => (s.bytesRead, s.d_read_buffer)) =
      some ([1, 2, 3], [4]) := by decide +kernel
  obtain ⟨s, reached, bytes⟩ := Option.map_eq_some_iff.mp ran
  obtain ⟨bytesRead, buffer⟩ := Prod.mk.inj bytes
  exact ⟨s, reached, bytesRead, buffer, fusb_accounted true 2 (by decide +kernel) reached⟩

/-- The first submission of a `write` fails. -/
def failedWrite : List FusbEvent :=
  [.call .start, .call (.write (List.replicate 512 0)), .go, .submitted false]

/-- The only submission of a `start` fails. -/
def failedStart : List FusbEvent :=
  [.call .start, .go, .submitted false, .go]

theorem not_accounted_of_places {s : Fusb} (urb : Nat) (places : s.places urb ≠ 1)
    (inside : urb < s.d_nblocks) : ¬s.Accounted := by
  intro accounted
  have one := accounted.onePlace urb
  rw [if_pos inside] at one
  exact places one

/-- The block of the failed write is in the free list and the work in progress, and the one of the
failed start is nowhere. -/
theorem failed_submissions_unaccounted :
    (∃ s, run fusbStep (initial false 2) failedWrite = some s ∧ s.places 0 = 2 ∧ ¬s.Accounted) ∧
      ∃ s, run fusbStep (initial true 1) failedStart = some s ∧ s.places 0 = 0 ∧ ¬s.Accounted := by
  have write : (run fusbStep (initial false 2) failedWrite).map (fun s => (s.places 0, s.d_nblocks)) =
      some (2, 2) := by decide +kernel
  have start : (run fusbStep (initial true 1) failedStart).map (fun s => (s.places 0, s.d_nblocks)) =
      some (0, 1) := by decide +kernel
  obtain ⟨s, wrote, ends⟩ := Option.map_eq_some_iff.mp write
  obtain ⟨t, started, stops⟩ := Option.map_eq_some_iff.mp start
  obtain ⟨two, blocks⟩ := Prod.mk.inj ends
  obtain ⟨zero, blocks'⟩ := Prod.mk.inj stops
  refine ⟨⟨s, wrote, two, ?_⟩, t, started, zero, ?_⟩
  · exact not_accounted_of_places 0 (by omega) (by omega)
  · exact not_accounted_of_places 0 (by omega) (by omega)

end Fusb

end GnuRadio.Usrp
