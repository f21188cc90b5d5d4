import SimpleWeb.RequestLog

/-!
# SimpleWeb.LogOrder

The order of the log. Handlers of one batch give their messages to the logger in any order, but the
loop writes the queue behind each batch and waits for the next one behind that. So the log is a
block for each batch, in the order of the batches: the messages of its events, or nothing when the
file could not be opened (`log_order`).
-/

namespace SimpleWeb
namespace Reactor

open ThreadPool

variable {n : Nat} {τ : Type}

/-- The batches of a run -/
def batches (acts : List (Act n τ)) : List (List τ) :=
  acts.filterMap fun a => match a with
    | .epollWait evs => some evs
    | _ => none

/-- Whether the file was good, for each write of a run -/
def writes (acts : List (Act n τ)) : List Bool :=
  acts.filterMap fun a => match a with
    | .write good => some good
    | _ => none

/-- What is written of a batch -/
def Block (hs : Handlers τ) (block : List Bytes) (b : List τ × Bool) : Prop :=
  if b.2 then block.Perm (b.1.flatMap hs.logs) else block = []

/-- The messages of batches that are done -/
def messagesOf (hs : Handlers τ) (done : List (List τ × Bool)) : List Bytes :=
  done.flatMap fun b => b.1.flatMap hs.logs

/-- The batches that are done have their blocks in the log, what is in the queue is of the batch
behind them, and nothing but what bad files have lost is missing. -/
structure Ordered (hs : Handlers τ) (acts : List (Act n τ)) (s : Reactor n τ)
    (done : List (List τ × Bool)) : Prop where
  blocks : ∃ blocks, s.output = blocks.flatten ∧ List.Forall₂ (Block hs) blocks done
  conserved : ∃ lost : Multiset Bytes, s.logged + lost = s.handed hs ∧
    (s.output : Multiset Bytes) + lost = messagesOf hs done
  good : done.map Prod.snd = writes acts
  waiting : s.pc = .epollWait → done.map Prod.fst = batches acts ∧
    s.tasks = (done.map Prod.fst).flatten
  running : s.pc ≠ .epollWait → ∃ batch, batches acts = done.map Prod.fst ++ [batch] ∧
    s.tasks ++ ReactorPc.pending s.pc = (done.map Prod.fst).flatten ++ batch

section Steps

variable {hs : Handlers τ} {s s' : Reactor n τ} {acts : List (Act n τ)} {a : Act n τ}
  {done : List (List τ × Bool)}

theorem batches_concat (acts : List (Act n τ)) (a : Act n τ) :
    batches (acts ++ [a]) = batches acts ++ batches [a] := List.filterMap_append ..

theorem writes_concat (acts : List (Act n τ)) (a : Act n τ) :
    writes (acts ++ [a]) = writes acts ++ writes [a] :=
  List.filterMap_append ..

theorem ordered_init (hs : Handlers τ) : Ordered hs [] (init n τ) [] where
  blocks := ⟨[], rfl, .nil⟩
  conserved := ⟨0, by simp [logged, handed, init, ThreadPool.init], rfl⟩
  good := rfl
  waiting _ := ⟨rfl, rfl⟩
  running hpc := absurd rfl hpc

/-- A step that writes nothing and begins no batch -/
theorem Ordered.keep (h : Ordered hs acts s done) (hI : s.Inv true)
    (hstep : step hs true s a = some s') (hbatch : batches [a] = []) (hwrite : writes [a] = [])
    (hout : s'.output = s.output) (hlost : lostBy true s a = [])
    (hpc : s'.pc = .epollWait ↔ s.pc = .epollWait)
    (htasks : s'.tasks ++ ReactorPc.pending s'.pc = s.tasks ++ ReactorPc.pending s.pc)
    (hwait : s.pc = .epollWait → s'.tasks = s.tasks) : Ordered hs (acts ++ [a]) s' done := by
  obtain ⟨lost, hsum, hdone⟩ := h.conserved
  obtain ⟨new, hlog, hhanded⟩ := step_logged hI hstep
  rw [hlost] at hlog
  refine ⟨hout ▸ h.blocks, ⟨lost, ?_, hout ▸ hdone⟩, ?_, ?_, ?_⟩
  · calc s'.logged + lost = s.logged + new + lost := by rw [← hlog]; simp
      _ = s.handed hs + new := by rw [← hsum]; abel
      _ = s'.handed hs := hhanded.symm
  · rw [writes_concat, hwrite, List.append_nil]
    exact h.good
  · intro hpc'
    have hpc' := hpc.mp hpc'
    rw [batches_concat, hbatch, List.append_nil, hwait hpc']
    exact h.waiting hpc'
  · intro hpc'
    rw [batches_concat, hbatch, List.append_nil, htasks]
    exact h.running (mt hpc.mpr hpc')

/-- Behind the second loop the queue holds the messages of the batch. -/
theorem Ordered.queue (h : Ordered hs acts s done) (hI : s.Inv true) (hpc : s.pc = .write)
    {batch : List τ} (hbatch : s.tasks = (done.map Prod.fst).flatten ++ batch) :
    s.mess_list.Perm (batch.flatMap hs.logs) := by
  obtain ⟨lost, hsum, hdone⟩ := h.conserved
  have hwaited := hI.waited
  simp only [waitedFor, hpc] at hwaited
  have hhanded : s.handed hs = (messagesOf hs done : Multiset Bytes) + batch.flatMap hs.logs := by
    rw [handed, hI.submitted.ran_eq hwaited, Multiset.coe_bind, messages_range, hbatch,
      List.flatMap_append, ← Multiset.coe_add, messagesOf, List.flatten_eq_flatMap,
      List.flatMap_assoc, List.flatMap_map]
    rfl
  have hqueue : (s.mess_list : Multiset Bytes) + (s.output + lost) =
      batch.flatMap hs.logs + (s.output + lost) := by
    calc (s.mess_list : Multiset Bytes) + (s.output + lost) = s.logged + lost := by
          rw [logged, ← Multiset.coe_add]
          abel
      _ = (s.output + lost) + batch.flatMap hs.logs := by rw [hsum, hhanded, hdone]
      _ = _ := add_comm ..
  exact Multiset.coe_eq_coe.mp (add_right_cancel hqueue)

theorem Ordered.write (h : Ordered hs acts s done) (hI : s.Inv true) (hpc : s.pc = .write)
    (good : Bool) :
    ∃ done', Ordered hs (acts ++ [.write good]) (s.flush true good) done' := by
  obtain ⟨batch, hbatches, htasks⟩ := h.running (by simp [hpc])
  simp only [hpc, ReactorPc.pending, List.append_nil] at htasks
  have hqueue := h.queue hI hpc htasks
  obtain ⟨blocks, hout, hblocks⟩ := h.blocks
  obtain ⟨lost, hsum, hdone⟩ := h.conserved
  refine ⟨done ++ [(batch, good)], ?_, ?_, ?_, ?_, ?_⟩
  · cases good with
    | true =>
      refine ⟨blocks ++ [s.mess_list], by simp [flush, hout], ?_⟩
      exact List.rel_append hblocks (.cons hqueue .nil)
    | false =>
      refine ⟨blocks ++ [[]], by simp [flush, hout], ?_⟩
      exact List.rel_append hblocks (.cons rfl .nil)
  · have hmess : (messagesOf hs (done ++ [(batch, good)]) : Multiset Bytes) =
        messagesOf hs done + s.mess_list := by
      rw [Multiset.coe_eq_coe.mpr hqueue, Multiset.coe_add, messagesOf, List.flatMap_append,
        List.flatMap_singleton]
      rfl
    refine ⟨lost + lostBy true s (.write good), ?_, ?_⟩
    · rw [flush_handed, ← hsum, ← flush_logged true good s]
      abel
    · rw [hmess, ← hdone]
      cases good with
      | true =>
        simp only [flush, if_true, lostBy, ← Multiset.coe_add, Multiset.coe_nil]
        abel
      | false =>
        simp only [flush, if_true, lostBy, Bool.false_eq_true, if_false]
        abel
  · rw [writes_concat, List.map_append, h.good]
    rfl
  · intro _
    rw [batches_concat, hbatches, List.map_append, List.flatten_append]
    exact ⟨by simp [batches], by simpa [flush] using htasks⟩
  · intro hne
    exact absurd rfl hne

theorem step_ordered (h : Ordered hs acts s done) (hI : s.Inv true)
    (hstep : step hs true s a = some s') : ∃ done', Ordered hs (acts ++ [a]) s' done' := by
  cases step_move hstep with
  | @epollWait evs hpc _ =>
    obtain ⟨hbatches, htasks⟩ := h.waiting hpc
    refine ⟨done, h.blocks, ?_, ?_, nofun, ?_⟩
    · obtain ⟨lost, hsum, hdone⟩ := h.conserved
      exact ⟨lost, hsum, hdone⟩
    · rw [writes_concat, h.good]
      exact (List.append_nil _).symm
    · intro _
      refine ⟨evs, ?_, ?_⟩
      · rw [batches_concat, hbatches]
        rfl
      · rw [htasks]
        rfl
  | @write good hpc => exact h.write hI hpc good
  | @emplaceBack ev evs p hpc _ =>
    refine ⟨done, h.keep hI hstep rfl rfl rfl rfl (by simp [hpc]) ?_ (by simp [hpc])⟩
    rw [hpc]
    exact List.append_assoc ..
  | emplaced hpc | get hpc | rethrow hpc | got hpc =>
    exact ⟨done, h.keep hI hstep rfl rfl rfl rfl (by simp [hpc])
      (by rw [hpc]; rfl) fun _ => rfl⟩
  | submitter | worker | wake =>
    exact ⟨done, h.keep hI hstep rfl rfl rfl rfl Iff.rfl rfl fun _ => rfl⟩

theorem run_ordered (h : Lts.run (step hs true) (init n τ) acts = some s) :
    ∃ done, Ordered hs acts s done := by
  induction acts using List.reverseRecOn generalizing s with
  | nil =>
    cases h
    exact ⟨[], ordered_init hs⟩
  | append_singleton acts a ih =>
    obtain ⟨t, ht, hstep⟩ := Lts.run_concat_eq_some.mp h
    obtain ⟨done, hdone⟩ := ih ht
    exact step_ordered hdone (run_inv ht) hstep

end Steps

/-- For every run, whatever the handlers log and however they are interleaved: waiting for the next
batch, the log is one block for each batch, in their order, and a block is the messages of the
events of its batch, in some order, or nothing when its write found a bad file. -/
theorem log_order (hs : Handlers τ) (acts : List (Act n τ)) (s : Reactor n τ)
    (h : Lts.run (step hs true) (init n τ) acts = some s) (hpc : s.pc = .epollWait) :
    (batches acts).length = (writes acts).length ∧ s.tasks = (batches acts).flatten ∧
      ∃ blocks, s.output = blocks.flatten ∧
        List.Forall₂ (Block hs) blocks ((batches acts).zip (writes acts)) := by
  obtain ⟨done, hdone⟩ := run_ordered h
  obtain ⟨hbatches, htasks⟩ := hdone.waiting hpc
  have hwrites := hdone.good
  rw [← hbatches, ← hwrites]
  refine ⟨by simp, htasks, ?_⟩
  obtain ⟨blocks, hout, hblocks⟩ := hdone.blocks
  refine ⟨blocks, hout, ?_⟩
  rwa [List.zip_map', List.map_id'' fun _ => rfl]

theorem log_order_knownHost :
    ∃ s, Lts.run (step (handlers aConf Unit true) true) (init 1 _) (round (.rw knownHost)) =
        some s ∧ ∃ blocks, s.output = blocks.flatten ∧
      List.Forall₂ (Block (handlers aConf Unit true)) blocks [([.rw knownHost], true)] := by
  obtain ⟨s, hrun, hpc⟩ : ∃ s, Lts.run (step (handlers aConf Unit true) true) (init 1 _)
      (round (.rw knownHost)) = some s ∧ s.pc = .epollWait := ⟨_, rfl, rfl⟩
  obtain ⟨-, -, hblocks⟩ := log_order _ _ s hrun hpc
  exact ⟨s, hrun, hblocks⟩

end Reactor
end SimpleWeb
