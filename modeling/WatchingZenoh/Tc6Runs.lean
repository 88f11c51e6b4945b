import Mathlib
import WatchingZenoh.Tc6Frames

/-! Runs of receive, send and reset calls over a device that hands out chunks, with any exchange that
may fail. Every frame that is returned is one run of consecutive chunks, unless a chunk is received
behind a lost one of its frame. -/

namespace WatchingZenoh.Tc6
open Procedures

section Device

variable {cps : ChunkSize} {E : Type} (bus : Bus cps E)

/-- The exchange is one that `exchange` answers. -/
def accepted : Except E (Vector UInt8 cps.bytes × Word) → Bool
  | .ok back => parityOk back.2 && !Footer.headerBad back.2 && Footer.synced back.2
  | .error _ => false

/-- The chunks handed out so far, each with whether its exchange succeeded, are a reading of the
world: a data exchange that asks for a chunk is handed the next one, and nothing else is. -/
structure Hands (log : bus.World → List (Chunk cps × Bool)) : Prop where
  ask : ∀ w word tx, word.getLsbD 29 = false →
    ∃ c, log (bus.data w word tx).2 = log w ++ [(c, accepted (bus.data w word tx).1)] ∧
      ∀ back, (bus.data w word tx).1 = .ok back → accepted (bus.data w word tx).1 = true →
        back = (c.payload, c.footer)
  refrain : ∀ w word tx, word.getLsbD 29 = true → log (bus.data w word tx).2 = log w
  control : ∀ w words, log (bus.control w words).2 = log w
  probe : ∀ w, log (bus.probe w).2 = log w
  delayUs : ∀ w us, log (bus.delayUs w us) = log w
  nowUs : ∀ w, log (bus.nowUs w).2 = log w

theorem getLsbD_withParity (word : Word) {i : ℕ} (hpos : 0 < i) (hlt : i < 32) :
    (withParity word).getLsbD i = word.getLsbD i := by
  have hone : (1 : Word).getLsbD i = false := by
    rw [show (1 : Word) = 1#32 from rfl, BitVec.getLsbD_one]
    simp [hpos.ne']
  have hparity : ∀ n : ℕ, n % 2 = 0 ∨ n % 2 = 1 := fun n => by omega
  rw [withParity, BitVec.getLsbD_or, BitVec.getLsbD_and, BitVec.getLsbD_not, hone, parityBit]
  rcases hparity (countOnes (word &&& ~~~1) + 1) with h | h
  · rw [h]
    simp [hlt]
  · rw [h, show BitVec.ofNat 32 1 = (1 : Word) from rfl, hone]
    simp [hlt]

/-- The header asks for a chunk unless it says not to. -/
theorem getLsbD_word (h : DataHeader) : h.word.getLsbD 29 = h.noReceive := by
  rw [DataHeader.word, getLsbD_withParity _ (by decide) (by decide)]
  have hoffset : ((BitVec.ofNat 32 h.endByteOffset &&& 0x3F) <<< 8).getLsbD 29 = false := by
    rw [BitVec.getLsbD_shiftLeft, BitVec.getLsbD_and,
      show (0x3F : Word).getLsbD (29 - 8) = false from by decide]
    simp
  simp only [BitVec.getLsbD_or]
  cases h.dataValid <;> cases h.noReceive <;> cases h.startValid <;> cases h.endValid <;>
    simp only [Bool.false_eq_true, if_true, if_false, BitVec.getLsbD_or, hoffset] <;> decide

variable {bus} {log : bus.World → List (Chunk cps × Bool)} {α β : Type}

/-- Neither the frame under assembly nor the chunks handed out change. -/
def Quiet (log : bus.World → List (Chunk cps × Bool)) (x : Tc6 bus α) : Prop :=
  ∀ a l, Keeps (fun s => s.1.assembly = a ∧ log s.2 = l) x

theorem Quiet.bind {x : Tc6 bus α} {f : α → Tc6 bus β} (hx : Quiet log x)
    (hf : ∀ b, Quiet log (f b)) : Quiet log (x >>= f) :=
  fun a l => keeps_bind (hx a l) fun b => hf b a l

theorem quiet_pure (b : α) : Quiet log (pure b : Tc6 bus α) := fun _ _ => keeps_pure b

theorem quiet_throw (e : Error E) : Quiet log (throw e : Tc6 bus α) := fun _ _ => keeps_throw e

theorem quiet_read (f : State × bus.World → α) : Quiet log (read f : Tc6 bus α) :=
  fun _ _ => keeps_read f

theorem quiet_modifyState {f : State → State} (h : ∀ s, (f s).assembly = s.assembly) :
    Quiet log (modifyState bus f) :=
  fun _ _ => keeps_modify fun s hs => ⟨(h s.1).trans hs.1, hs.2⟩

theorem quiet_forEach {f : α → Tc6 bus Unit} (h : ∀ b, Quiet log (f b)) (items : List α) :
    Quiet log (forEach f items) :=
  fun a l => keeps_forEach (fun b => h b a l) items

theorem quiet_ite {c : Prop} [Decidable c] {x y : Tc6 bus α} (hx : Quiet log x) (hy : Quiet log y) :
    Quiet log (if c then x else y) := by
  split_ifs
  · exact hx
  · exact hy

theorem quiet_onBus {f : bus.World → Except E α × bus.World} (h : ∀ w, log (f w).2 = log w) :
    Quiet log (onBus bus f) := by
  intro a l s hs
  have hstill : (onBus bus f s).2.1.assembly = a ∧ log (onBus bus f s).2.2 = l :=
    ⟨hs.1, (h s.2).trans hs.2⟩
  refine ⟨fun b s' hrun => ?_, fun e s' hrun => ?_⟩
  · rw [hrun] at hstill
    exact hstill
  · rw [hrun] at hstill
    exact hstill

theorem quiet_onWorld {f : bus.World → α × bus.World} (h : ∀ w, log (f w).2 = log w) :
    Quiet log (onWorld bus f) := by
  intro a l s hs
  have hstill : (onWorld bus f s).2.1.assembly = a ∧ log (onWorld bus f s).2.2 = l :=
    ⟨hs.1, (h s.2).trans hs.2⟩
  refine ⟨fun b s' hrun => ?_, fun e s' hrun => by cases hrun⟩
  rw [hrun] at hstill
  exact hstill

variable (hands : Hands bus log)
include hands

theorem quiet_control (reg : Reg) (value : Option Word) : Quiet log (control bus reg value) := by
  refine Quiet.bind (quiet_read _) fun inMode => ?_
  refine Quiet.bind (quiet_onBus fun w => hands.control w _) fun words => ?_
  exact quiet_ite (quiet_throw _) (quiet_ite (quiet_throw _) (quiet_ite (quiet_throw _)
    (quiet_pure _)))

theorem quiet_regWrite (reg : Reg) (value : Word) : Quiet log (regWrite bus reg value) :=
  Quiet.bind (quiet_control hands reg _) fun _ => quiet_pure _

theorem quiet_awaitReset (started budgetUs turns : ℕ) :
    Quiet log (awaitReset bus started budgetUs turns) := by
  induction turns with
  | zero => exact quiet_pure _
  | succ turns ih =>
    refine Quiet.bind (quiet_onWorld fun w => hands.delayUs w _) fun _ => ?_
    refine Quiet.bind (quiet_control hands _ _) fun status0 => quiet_ite ?_ ?_
    · exact Quiet.bind (quiet_regWrite hands _ _) fun _ => quiet_pure _
    · refine Quiet.bind (quiet_onWorld hands.nowUs) fun now => ?_
      exact quiet_ite (quiet_throw _) ih

theorem quiet_softReset (budgetMs turns : ℕ) : Quiet log (softReset bus budgetMs turns) := by
  refine Quiet.bind (quiet_regWrite hands _ _) fun _ => ?_
  refine Quiet.bind (quiet_regWrite hands _ _) fun _ => ?_
  refine Quiet.bind (quiet_modifyState fun _ => rfl) fun _ => ?_
  exact Quiet.bind (quiet_onWorld hands.nowUs) fun _ => quiet_awaitReset hands _ _ _

theorem quiet_clearExtendedStatus : Quiet log (clearExtendedStatus bus) := by
  have hlast : Quiet log (modifyState bus fun s =>
      { s with status := { s.status with extended := false } }) := quiet_modifyState fun _ => rfl
  have hrest : Quiet log (regRead bus StdReg.status1 >>= fun status1 =>
      if status1 ≠ 0 then regWrite bus StdReg.status1 status1 >>= fun _ =>
        modifyState bus fun s => { s with status := { s.status with extended := false } }
      else modifyState bus fun s => { s with status := { s.status with extended := false } }) := by
    refine Quiet.bind (quiet_control hands _ _) fun status1 => quiet_ite ?_ hlast
    exact Quiet.bind (quiet_regWrite hands _ _) fun _ => hlast
  refine Quiet.bind (quiet_control hands _ _) fun status0 => quiet_ite ?_ hrest
  refine Quiet.bind (quiet_regWrite hands _ _) fun _ => ?_
  exact Quiet.bind (quiet_modifyState fun _ => rfl) fun _ => hrest

theorem quiet_exchange {header : DataHeader} (h : header.noReceive = true) (tx : Bytes) :
    Quiet log (exchange bus header tx) := by
  have hword : header.word.getLsbD 29 = true := (getLsbD_word header).trans h
  refine Quiet.bind (quiet_onBus fun w => hands.refrain w _ _ hword) fun back => ?_
  refine quiet_ite (quiet_throw _) (quiet_ite (quiet_throw _) ?_)
  refine Quiet.bind (quiet_modifyState fun _ => rfl) fun _ => ?_
  exact quiet_ite (quiet_throw _) (quiet_pure _)

theorem quiet_readStatus : Quiet log (readStatus bus) :=
  Quiet.bind (quiet_exchange hands rfl []) fun _ => quiet_pure _

theorem quiet_sendFrame (frame : Bytes) : Quiet log (sendFrame bus frame) := by
  have hsent : Quiet log (read (fun s => s.1.status.extended) >>= fun extended =>
      if extended then clearExtendedStatus bus >>= fun _ => pure true else pure true) := by
    refine Quiet.bind (quiet_read _) fun extended => quiet_ite ?_ (quiet_pure _)
    exact Quiet.bind (quiet_clearExtendedStatus hands) fun _ => quiet_pure _
  have hrest : Quiet log (read (fun s => s.1.status.txc) >>= fun credits =>
      if credits < (frame.toChunks cps.bytes).length then pure false
      else forEach (fun (p : Bytes × ℕ) => do
          let _ ← exchange bus (sendHeader (frame.toChunks cps.bytes).length p.2 p.1) p.1
          pure ()) (frame.toChunks cps.bytes).zipIdx >>= fun _ =>
        read (fun s => s.1.status.extended) >>= fun extended =>
          if extended then clearExtendedStatus bus >>= fun _ => pure true else pure true) := by
    refine Quiet.bind (quiet_read _) fun credits => quiet_ite (quiet_pure _) ?_
    refine Quiet.bind (quiet_forEach (fun p => ?_) _) fun _ => hsent
    exact Quiet.bind (quiet_exchange hands rfl _) fun _ => quiet_pure _
  refine quiet_ite (quiet_pure _) ?_
  refine Quiet.bind (quiet_read _) fun credits => quiet_ite ?_ hrest
  exact Quiet.bind (quiet_readStatus hands) fun _ => hrest

theorem quiet_awaitChunk : Quiet log (awaitChunk bus) := by
  have hasked : Quiet log (read (fun s => s.1.status.extended) >>= fun extended =>
      if extended then clearExtendedStatus bus >>= fun _ =>
        read (fun s => s.1.status.rca) >>= fun rca => pure (decide (rca ≠ 0))
      else read (fun s => s.1.status.rca) >>= fun rca => pure (decide (rca ≠ 0))) := by
    have hlast : Quiet log (read (fun s => s.1.status.rca) >>= fun rca =>
        (pure (decide (rca ≠ 0)) : Tc6 bus Bool)) :=
      Quiet.bind (quiet_read _) fun _ => quiet_pure _
    refine Quiet.bind (quiet_read _) fun extended => quiet_ite ?_ hlast
    exact Quiet.bind (quiet_clearExtendedStatus hands) fun _ => hlast
  refine Quiet.bind (quiet_read _) fun rca => quiet_ite (quiet_pure _) ?_
  refine Quiet.bind (quiet_read _) fun interrupt => quiet_ite ?_ ?_
  · refine Quiet.bind (quiet_onWorld hands.probe) fun quiet => quiet_ite (quiet_pure _) ?_
    exact Quiet.bind (quiet_readStatus hands) fun _ => hasked
  · refine Quiet.bind (quiet_pure _) fun quiet => quiet_ite (quiet_pure _) ?_
    exact Quiet.bind (quiet_readStatus hands) fun _ => hasked

omit hands in
theorem Quiet.keeps {x : Tc6 bus α} (hx : Quiet log x)
    (P : Assembly → List (Chunk cps × Bool) → Prop) :
    Keeps (fun s => P s.1.assembly (log s.2)) x := by
  intro s hs
  obtain ⟨hok, herror⟩ := hx s.1.assembly (log s.2) s ⟨rfl, rfl⟩
  refine ⟨fun b s' hrun => ?_, fun e s' hrun => ?_⟩
  · obtain ⟨ha, hl⟩ := hok b s' hrun
    rw [ha, hl]
    exact hs
  · obtain ⟨ha, hl⟩ := herror e s' hrun
    rw [ha, hl]
    exact hs

theorem exchange_receive (a : Assembly) (l : List (Chunk cps × Bool)) :
    Ensures (fun s => s.1.assembly = a ∧ log s.2 = l) (exchange bus .receive [])
      (fun back s => s.1.assembly = a ∧ ∃ c, log s.2 = l ++ [(c, true)] ∧
        back = (c.payload, c.footer))
      (fun s => s.1.assembly = a ∧ ∃ c, log s.2 = l ++ [(c, false)]) := by
  rintro ⟨st, w⟩ ⟨ha, hl⟩
  obtain ⟨c, hlog, hback⟩ := hands.ask w DataHeader.receive.word [] (getLsbD_word .receive)
  rcases hdata : bus.data w DataHeader.receive.word [] with ⟨result, w'⟩
  rw [hdata] at hlog hback
  simp only at ha hl hlog hback
  rw [hl] at hlog
  cases result with
  | error e =>
    have hfirst : onBus bus (bus.data · DataHeader.receive.word []) (st, w) =
        (.error (.spi e), (st, w')) := by
      simp [onBus, hdata, Except.mapError]
    rw [exchange, bind_of_error hfirst]
    refine ⟨fun b s' hrun => (by cases hrun), fun e' s' hrun => ?_⟩
    cases hrun
    exact ⟨ha, c, hlog⟩
  | ok back =>
    have hfirst : onBus bus (bus.data · DataHeader.receive.word []) (st, w) =
        (.ok back, (st, w')) := by
      simp [onBus, hdata, Except.mapError]
    rw [exchange, bind_of_ok hfirst]
    by_cases hgood : accepted (.ok back : Except E _) = true
    · rw [hgood] at hlog
      have hgood' := hgood
      simp only [accepted, Bool.and_eq_true, Bool.not_eq_true'] at hgood'
      obtain ⟨⟨hparity, hheader⟩, hsynced⟩ := hgood'
      simp only [hparity, hheader, hsynced, Bool.not_true, Bool.false_eq_true, if_false]
      refine ⟨fun b s' hrun => ?_, fun e s' hrun => by cases hrun⟩
      cases hrun
      exact ⟨ha, c, hlog, hback back rfl hgood⟩
    · rw [Bool.not_eq_true] at hgood
      rw [hgood] at hlog
      have hbad : parityOk back.2 = true → Footer.headerBad back.2 = false →
          Footer.synced back.2 = false := fun hparity hheader => by
        simpa [accepted, hparity, hheader] using hgood
      by_cases hparity : parityOk back.2 = true
      · by_cases hheader : Footer.headerBad back.2 = true
        · simp only [hparity, hheader, Bool.not_true, Bool.false_eq_true, if_false, if_true]
          refine ⟨fun b s' hrun => (by cases hrun), fun e s' hrun => ?_⟩
          cases hrun
          exact ⟨ha, c, hlog⟩
        · rw [Bool.not_eq_true] at hheader
          simp only [hparity, hheader, hbad hparity hheader, Bool.not_true, Bool.not_false,
            Bool.false_eq_true, if_false, if_true]
          refine ⟨fun b s' hrun => (by cases hrun), fun e s' hrun => ?_⟩
          cases hrun
          exact ⟨ha, c, hlog⟩
      · rw [Bool.not_eq_true] at hparity
        simp only [hparity, Bool.not_false, if_true]
        refine ⟨fun b s' hrun => (by cases hrun), fun e s' hrun => ?_⟩
        cases hrun
        exact ⟨ha, c, hlog⟩

end Device

section Calls

variable {cps : ChunkSize} {E : Type} {bus : Bus cps E} {log : bus.World → List (Chunk cps × Bool)}

/-- The frame under assembly is as the chunks handed out leave it, none of those of `past` gone. -/
def Sound (past : List (Chunk cps × Bool)) (a : Assembly) (l : List (Chunk cps × Bool)) : Prop :=
  past <+: l ∧ (Unspliced l → Assembled l a (trackOf l))

theorem Sound.skip {past l : List (Chunk cps × Bool)} {a : Assembly} (h : Sound past a l)
    {c : Chunk cps} {got : Bool} (hskip : c.data = false ∨ got = false) :
    Sound past a (l ++ [(c, got)]) :=
  ⟨h.1.trans (List.prefix_append _ _), fun hclean => (h.2 hclean.of_append).skip hskip⟩

theorem Sound.take {past l : List (Chunk cps × Bool)} {a : Assembly} (h : Sound past a l)
    {c : Chunk cps} {room : ℕ} (hdata : c.data = true) :
    Sound past (a.chunk cps c.payload.toList c.footer room).1 (l ++ [(c, true)]) ∧
      ∀ frame, (a.chunk cps c.payload.toList c.footer room).2 = some frame →
        Unspliced (l ++ [(c, true)]) → Completed (l ++ [(c, true)]) frame := by
  have htake : Unspliced (l ++ [(c, true)]) →
      Assembled (l ++ [(c, true)]) (a.chunk cps c.payload.toList c.footer room).1
          (trackOf (l ++ [(c, true)])) ∧
        ∀ frame, (a.chunk cps c.payload.toList c.footer room).2 = some frame →
          Completed (l ++ [(c, true)]) frame := fun hclean =>
    (h.2 hclean.of_append).take hdata (hclean l (c, true) [] rfl)
  exact ⟨⟨h.1.trans (List.prefix_append _ _), fun hclean => (htake hclean).1⟩,
    fun frame hframe hclean => (htake hclean).2 frame hframe⟩

/-- What a turn of the receive loop answers, of the chunks handed out. -/
def Turn.Fair (l : List (Chunk cps × Bool)) : Turn → Prop
  | .again => True
  | .done frame => ∀ bytes, frame = some bytes → Unspliced l → Completed l bytes

/-- The calls of an application. A reset waits for so many turns at most. -/
inductive Call
  | receiveFrame (room : ℕ)
  | sendFrame (frame : Bytes)
  | softReset (budgetMs turns : ℕ)

variable (bus) in
def perform : Call → Tc6 bus (Option Bytes)
  | .receiveFrame room => receiveFrame bus room
  | .sendFrame frame => sendFrame bus frame >>= fun _ => pure none
  | .softReset budgetMs turns => softReset bus budgetMs turns >>= fun _ => pure none

variable (bus) in
/-- The frames that a run of calls returns, and what it leaves; a call that fails returns none. -/
def runCalls : List Call → State × bus.World → List Bytes × (State × bus.World)
  | [], s => ([], s)
  | call :: rest, s =>
    let first := perform bus call s
    let frame := (first.1.toOption.bind id).toList
    let more := runCalls rest first.2
    (frame ++ more.1, more.2)

variable (hands : Hands bus log) (past : List (Chunk cps × Bool))
include hands

theorem exchange_sound :
    Ensures (fun s => Sound past s.1.assembly (log s.2)) (exchange bus .receive [])
      (fun back s => ∃ l c, log s.2 = l ++ [(c, true)] ∧ back = (c.payload, c.footer) ∧
        Sound past s.1.assembly l)
      (fun s => Sound past s.1.assembly (log s.2)) := by
  intro s hs
  obtain ⟨hok, herror⟩ := exchange_receive hands s.1.assembly (log s.2) s ⟨rfl, rfl⟩
  refine ⟨fun back s' hrun => ?_, fun e s' hrun => ?_⟩
  · obtain ⟨ha, c, hl, hback⟩ := hok back s' hrun
    refine ⟨log s.2, c, hl, hback, ?_⟩
    rw [ha]
    exact hs
  · obtain ⟨ha, c, hl⟩ := herror e s' hrun
    rw [ha, hl]
    exact hs.skip (.inr rfl)

omit hands in
theorem takeChunk_sound (room : ℕ) (back : Vector UInt8 cps.bytes × Word) :
    Ensures (fun s => ∃ l c, log s.2 = l ++ [(c, true)] ∧ back = (c.payload, c.footer) ∧
        Sound past s.1.assembly l)
      (takeChunk bus room back.1.toList back.2)
      (fun turn s => Sound past s.1.assembly (log s.2) ∧ turn.Fair (log s.2))
      (fun s => Sound past s.1.assembly (log s.2)) := by
  rintro s ⟨l, c, hl, rfl, hs⟩
  by_cases hdata : Footer.dataValid c.footer = true
  · have htake := @Sound.take cps past l s.1.assembly hs c room hdata
    obtain ⟨hsound, hframe⟩ := htake
    simp only [takeChunk, hdata, Bool.not_true, Bool.false_eq_true, if_false]
    refine ⟨fun turn s' hrun => ?_, fun e s' hrun => by cases hrun⟩
    cases hrun
    rw [hl]
    refine ⟨hsound, ?_⟩
    cases hchunk : (s.1.assembly.chunk cps c.payload.toList c.footer room).2 with
    | none => exact trivial
    | some frame =>
      intro bytes hbytes hclean
      cases hbytes
      exact hframe frame hchunk hclean
  · rw [Bool.not_eq_true] at hdata
    simp only [takeChunk, hdata, Bool.not_false, if_true]
    refine ⟨fun turn s' hrun => ?_, fun e s' hrun => by cases hrun⟩
    cases hrun
    rw [hl]
    exact ⟨hs.skip (.inl hdata), trivial⟩

theorem receiveTurn_sound (room : ℕ) :
    Ensures (fun s => Sound past s.1.assembly (log s.2)) (receiveTurn bus room)
      (fun turn s => Sound past s.1.assembly (log s.2) ∧ turn.Fair (log s.2))
      (fun s => Sound past s.1.assembly (log s.2)) := by
  refine ensures_bind ((quiet_awaitChunk hands).keeps (Sound past)) fun waiting => ?_
  cases waiting with
  | false => exact ensures_pure fun s hs => ⟨hs, fun bytes hbytes => by cases hbytes⟩
  | true => exact ensures_bind (exchange_sound hands past) fun back => takeChunk_sound past room back

theorem receiveLoop_sound (room turns : ℕ) :
    Ensures (fun s => Sound past s.1.assembly (log s.2)) (receiveLoop bus room turns)
      (fun frame s => Sound past s.1.assembly (log s.2) ∧ (Turn.done frame).Fair (log s.2))
      (fun s => Sound past s.1.assembly (log s.2)) := by
  induction turns with
  | zero => exact ensures_pure fun s hs => ⟨hs, fun bytes hbytes => by cases hbytes⟩
  | succ turns ih =>
    refine ensures_bind (receiveTurn_sound hands past room) fun turn => ?_
    cases turn with
    | again => exact ih.weaken (fun s hs => hs.1) (fun _ _ hs => hs) fun _ hs => hs
    | done frame => exact ensures_pure fun s hs => hs

theorem perform_sound (call : Call) :
    Ensures (fun s => Sound past s.1.assembly (log s.2)) (perform bus call)
      (fun frame s => Sound past s.1.assembly (log s.2) ∧ (Turn.done frame).Fair (log s.2))
      (fun s => Sound past s.1.assembly (log s.2)) := by
  have hnone : Ensures (fun s => Sound past s.1.assembly (log s.2)) (pure none : Tc6 bus _)
      (fun frame s => Sound past s.1.assembly (log s.2) ∧ (Turn.done frame).Fair (log s.2))
      (fun s => Sound past s.1.assembly (log s.2)) :=
    ensures_pure fun s hs => ⟨hs, fun bytes hbytes => by cases hbytes⟩
  cases call with
  | receiveFrame room => exact receiveLoop_sound hands past room _
  | sendFrame frame =>
    exact ensures_bind ((quiet_sendFrame hands frame).keeps (Sound past)) fun _ => hnone
  | softReset budgetMs turns =>
    exact ensures_bind ((quiet_softReset hands budgetMs turns).keeps (Sound past)) fun _ => hnone

theorem runCalls_sound (calls : List Call) (s : State × bus.World)
    (hs : Sound past s.1.assembly (log s.2)) :
    log s.2 <+: log (runCalls bus calls s).2.2 ∧
      (Unspliced (log (runCalls bus calls s).2.2) →
        ∀ frame ∈ (runCalls bus calls s).1, Completed (log (runCalls bus calls s).2.2) frame) := by
  induction calls generalizing s past with
  | nil => exact ⟨List.prefix_rfl, fun _ frame hframe => by simp [runCalls] at hframe⟩
  | cons call rest ih =>
    have hstart : Sound (log s.2) s.1.assembly (log s.2) := ⟨List.prefix_rfl, hs.2⟩
    obtain ⟨hok, herror⟩ := perform_sound hands (log s.2) call s hstart
    rw [runCalls]
    rcases hcall : perform bus call s with ⟨result, s'⟩
    have hnext : Sound (log s.2) s'.1.assembly (log s'.2) := by
      cases result with
      | ok frame => exact (hok frame s' hcall).1
      | error e => exact herror e s' hcall
    obtain ⟨hgrows, hframes⟩ := ih _ s' hnext
    refine ⟨hnext.1.trans hgrows, fun hclean frame hframe => ?_⟩
    rcases List.mem_append.mp hframe with hmem | hmem
    · cases result with
      | error e => simp [Except.toOption] at hmem
      | ok answer =>
        have hanswer : answer = some frame := by simpa [Except.toOption] using hmem
        obtain ⟨more, hmore⟩ := hgrows
        simp only at hclean ⊢
        rw [← hmore] at hclean ⊢
        exact ((hok answer s' hcall).2 frame hanswer hclean.of_append).append more
    · exact hframes hclean frame hmem

/-- A frame that is returned is the run of chunks of one frame, with none of it missing and none of
another added, where no chunk is received behind a lost one of its frame. -/
theorem frames_unspliced (calls : List Call) (s : State × bus.World) (hnew : s.1.assembly = {})
    (hnone : log s.2 = []) (hclean : Unspliced (log (runCalls bus calls s).2.2)) :
    ∀ frame ∈ (runCalls bus calls s).1, Completed (log (runCalls bus calls s).2.2) frame := by
  refine (runCalls_sound hands [] calls s ⟨List.nil_prefix, fun _ => ?_⟩).2 hclean
  rw [hnew, hnone]
  exact ⟨rfl, rfl⟩

end Calls

section Scripted

/-- A device whose exchanges are written down: the chunks to hand out, and whether each arrives. -/
structure Script where
  ahead : List (Chunk .b8 × Bool)
  handed : List (Chunk .b8 × Bool)

/-- A footer of a synchronised device with a chunk waiting. -/
def waitingFooter : Word := 0x21000001

def idleChunk : Chunk .b8 := ⟨Vector.replicate 8 0, waitingFooter⟩

def Script.next (w : Script) : (Chunk .b8 × Bool) × List (Chunk .b8 × Bool) :=
  (w.ahead.headD (idleChunk, true), w.ahead.tail)

def Script.answer (w : Script) : Except Unit (Vector UInt8 ChunkSize.b8.bytes × Word) :=
  if w.next.1.2 then .ok (w.next.1.1.payload, w.next.1.1.footer) else .error ()

def scripted : Bus .b8 Unit where
  World := Script
  data w word _ :=
    if word.getLsbD 29 then (.ok (idleChunk.payload, idleChunk.footer), w)
    else (w.answer, ⟨w.next.2, w.handed ++ [(w.next.1.1, accepted w.answer)]⟩)
  control w words := (.ok words, w)
  probe w := (true, w)
  delayUs w _ := w
  nowUs w := (0, w)

theorem hands_scripted : Hands scripted Script.handed where
  ask w word tx h := by
    have hdata : scripted.data w word tx = (Script.answer w,
        ⟨Script.next w |>.2, Script.handed w ++
          [((Script.next w).1.1, accepted (Script.answer w))]⟩) := by
      simp only [scripted, h, Bool.false_eq_true, if_false]
    rw [hdata]
    refine ⟨(Script.next w).1.1, rfl, fun back hback _ => ?_⟩
    unfold Script.answer at hback
    split_ifs at hback
    exact (Except.ok.inj hback).symm
  refrain w word tx h := by simp [scripted, h]
  control w words := rfl
  probe w := rfl
  delayUs w us := rfl
  nowUs w := rfl

/-- The three chunks of a frame of twenty-four bytes. -/
def firstChunk : Chunk .b8 := ⟨#v[1, 2, 3, 4, 5, 6, 7, 8], 0x21300001⟩

def middleChunk : Chunk .b8 := ⟨#v[9, 10, 11, 12, 13, 14, 15, 16], 0x21200000⟩

def lastChunk : Chunk .b8 := ⟨#v[17, 18, 19, 20, 21, 22, 23, 24], 0x20204701⟩

def twoReceives : List Call := [.receiveFrame 1536, .receiveFrame 1536]

/-- The last chunk of an earlier frame is lost, and the next frame is received. -/
theorem frames_unspliced_lossy :
    Completed (runCalls scripted twoReceives
        ({}, ⟨[(lastChunk, false), (firstChunk, true), (lastChunk, true)], []⟩)).2.2.handed
      (firstChunk.payload.toList ++ lastChunk.payload.toList) := by
  have hlog : (runCalls scripted twoReceives
      ({}, ⟨[(lastChunk, false), (firstChunk, true), (lastChunk, true)], []⟩)).2.2.handed =
      [(lastChunk, false), (firstChunk, true), (lastChunk, true)] := by decide +kernel
  refine frames_unspliced hands_scripted twoReceives _ rfl rfl ?_ _ (by decide +kernel)
  rw [hlog]
  rintro past handed rest hsplit ⟨hbroken, -⟩
  have htake : past = [(lastChunk, false), (firstChunk, true), (lastChunk, true)].take past.length := by
    rw [hsplit, List.take_left]
  have hlen : past.length < 3 := by
    have := congrArg List.length hsplit
    simp at this
    omega
  rw [htake] at hbroken
  generalize past.length = n at hbroken hlen
  interval_cases n <;> revert hbroken <;> decide

/-- A lost chunk in the middle of a frame, and the two others returned as a frame. -/
theorem lost_chunk_splices :
    ¬ ∀ (cps : ChunkSize) (E : Type) (bus : Bus cps E) (log : bus.World → List (Chunk cps × Bool)),
      Hands bus log → ∀ (calls : List Call) (s : State × bus.World), s.1.assembly = {} →
      log s.2 = [] →
      ∀ frame ∈ (runCalls bus calls s).1, Completed (log (runCalls bus calls s).2.2) frame := by
  intro hall
  have hlog : (runCalls scripted twoReceives
      ({}, ⟨[(firstChunk, true), (middleChunk, false), (lastChunk, true)], []⟩)).2.2.handed =
      [(firstChunk, true), (middleChunk, false), (lastChunk, true)] := by decide +kernel
  have hframe : firstChunk.payload.toList ++ lastChunk.payload.toList ∈
      (runCalls scripted twoReceives
        ({}, ⟨[(firstChunk, true), (middleChunk, false), (lastChunk, true)], []⟩)).1 := by
    decide +kernel
  obtain ⟨run, ⟨front, back, hsplit⟩, hrun⟩ :=
    hall .b8 Unit scripted Script.handed hands_scripted _ _ rfl rfl _ hframe
  have hbytes := hrun.bytes
  rw [hlog] at hsplit
  have htake : run = (([firstChunk, middleChunk, lastChunk].drop front.length).take run.length) := by
    have hlist : [firstChunk, middleChunk, lastChunk] = front ++ (run ++ back) := by
      rw [← List.append_assoc, hsplit]
      rfl
    rw [hlist, List.drop_left, List.take_left]
  have hlen : front.length + run.length ≤ 3 := by
    have := congrArg List.length hsplit
    simp at this
    omega
  rw [htake] at hbytes
  generalize front.length = m at hbytes hlen
  generalize run.length = n at hbytes hlen
  have hm : m ≤ 3 := by omega
  have hn : n ≤ 3 := by omega
  clear hlen
  interval_cases m <;> interval_cases n <;> revert hbytes <;> decide

end Scripted

end WatchingZenoh.Tc6
