import UspClient.Budget.Legacy
import UspClient.Buffer.Requests
import UspClient.Buffer.Deals

/-!
# Waking blocked calls (ack_buffer.go)

A call that blocks samples the wake channel under the lock, unlocks, and waits until the channel
is closed. It may miss nothing, because a section that changes what the call waits for closes the
channel (`Signals`). The exception is an admission: it closes nothing, and only adds to what a
refused add waits for (`Stuck.admitted`).
-/

namespace UspClient

open Function Word64 Replay ByteBudget

namespace AckBuffer

variable {b b' b₀ : AckBuffer} {bb bb' : ByteBudget} {size : Nat} {w : Option WaiterId}
variable {p : Option ChanId} {c : ChanId}

/-- What a blocked call waits for. -/
def gate (b : AckBuffer) :
    (Bool × Bool × Bool) × (Nat × Nat × Nat × Nat) × Bool × Nat × Bool :=
  ((b.isRunning, b.isClosed, b.isAvailable),
    (b.bytes, b.lastFlaggedSeq, b.firstSeqNum, b.nextIndexFree),
    b.accounting, b.maxBytes, b.shared)

/-- No channel is opened again, and the one that is open is closed unless nothing changed. -/
structure Signals (b b' : AckBuffer) : Prop where
  closed : ∀ c, b.wakeClosed c = true → b'.wakeClosed c = true
  wake : ∀ c, b.wake = some c → b'.wakeClosed c = true ∨ (b'.wake = some c ∧ b'.gate = b.gate)

theorem Signals.refl (b : AckBuffer) : Signals b b := ⟨fun _ hc => hc, fun _ hc => .inr ⟨hc, rfl⟩⟩

theorem Signals.trans (h₁ : Signals b₀ b) (h₂ : Signals b b') : Signals b₀ b' := by
  refine ⟨fun c hc => h₂.closed c (h₁.closed c hc), fun c hc => ?_⟩
  rcases h₁.wake c hc with hclosed | ⟨hwake, hgate⟩
  · exact .inl (h₂.closed c hclosed)
  · exact (h₂.wake c hwake).imp_right fun ⟨hwake', hgate'⟩ => ⟨hwake', hgate'.trans hgate⟩

theorem signals_of_ledger (h : b'.ledger = b.ledger) : Signals b b' := by
  have hclosed : b'.ledger.wakeClosed = b.ledger.wakeClosed := congrArg wakeClosed h
  have hwake : b'.ledger.wake = b.ledger.wake := congrArg AckBuffer.wake h
  have hgate : b'.ledger.gate = b.ledger.gate := congrArg gate h
  exact ⟨fun c hc => (congrFun hclosed c).trans hc, fun c hc => .inr ⟨hwake.trans hc, hgate⟩⟩

theorem signalLocked_wakeClosed (b : AckBuffer) : b.signalLocked.wakeClosed =
    match b.wake with
    | some c => update b.wakeClosed c true
    | none => b.wakeClosed := rfl

/-- A section that ends with `signalLocked`. -/
theorem signals_of_signal (h : b'.wakeClosed = b.signalLocked.wakeClosed) : Signals b b' := by
  rw [signalLocked_wakeClosed] at h
  cases hw : b.wake with
  | none =>
    rw [hw] at h
    refine ⟨fun c hc => ?_, fun c hc => absurd (hw.symm.trans hc).symm (Option.some_ne_none c)⟩
    rw [h]
    exact hc
  | some k =>
    rw [hw] at h
    simp only at h
    refine ⟨fun c hc => ?_, fun c hc => .inl ?_⟩
    · rw [h, update_apply, hc, ite_self]
    · obtain rfl := Option.some.inj (hw.symm.trans hc)
      rw [h, update_self]

theorem sampleWake_wake (b : AckBuffer) : b.sampleWake.1.wake = some b.sampleWake.2 := rfl

/-- Sampling makes a channel only if there is none. -/
theorem signals_sampleWake (b : AckBuffer) : Signals b b.sampleWake.1 := by
  refine ⟨fun c hc => hc, fun c hc => .inr ⟨?_, rfl⟩⟩
  show some (b.wake.getD b.nextWake) = some c
  rw [hc]
  rfl

theorem Deal.signals {x x' : Account} (h : Deal x x') : Signals x.1 x'.1 := by
  cases h with
  | move hmove =>
    cases hmove with
    | idle b b' bb q q' hled _ _ => exact signals_of_ledger hled
    | retire | remove => exact signals_of_signal rfl
  | sample b bb q => exact signals_sampleWake b
  | stop | close => exact signals_of_signal rfl
  | resize b bb q n =>
    show Signals b (b.updateCapacity n)
    unfold updateCapacity
    split_ifs
    · exact Signals.refl b
    · exact signals_of_signal rfl

theorem Deals.signals {x x' : Account} (h : Deals x x') : Signals x.1 x'.1 :=
  h.keep (fun y => Signals x.1 y.1) (fun _ _ hd hy => hy.trans hd.signals) (Signals.refl x.1)

/-- A call that captured the channel `c`: while it is open it is the wake channel of the buffer,
and the buffer satisfies `P`. -/
def Listens (b : AckBuffer) (c : ChanId) (P : AckBuffer → Prop) : Prop :=
  b.wakeClosed c = false → b.wake = some c ∧ P b

theorem Listens.mono {P Q : AckBuffer → Prop} (h : b.Listens c P) (hPQ : P b → Q b) :
    b.Listens c Q := fun hopen => ⟨(h hopen).1, hPQ (h hopen).2⟩

theorem Listens.signals {P : AckBuffer → Prop} (h : b.Listens c P) (hs : Signals b b')
    (hP : b'.gate = b.gate → P b → P b') : b'.Listens c P := by
  intro hopen
  have hold : b.wakeClosed c = false := by
    by_contra hclosed
    exact ne_true_of_eq_false hopen (hs.closed c (Bool.not_eq_false _ ▸ hclosed))
  obtain ⟨hwake, hp⟩ := h hold
  rcases hs.wake c hwake with hclosed | ⟨hwake', hgate⟩
  · exact absurd hclosed (ne_true_of_eq_false hopen)
  · exact ⟨hwake', hP hgate hp⟩

/-! ## What a refused add waits for -/

/-- The budget would refuse the waiter `v` again, until the channel `p` is closed. -/
structure PoolShort (bb : ByteBudget) (size : Nat) (v : WaiterId) (p : Option ChanId) : Prop where
  /-- The channel is the waiter's own. -/
  fair : bb.fair = true → (bb.waiterAt v).wake = p
  /-- The channel is the budget's, as long as it is open. -/
  legacy : bb.fair = false → ∃ c, p = some c ∧
    (bb.closed c = false → bb.legacyWake = some c ∧ ¬ bb.LegacyRoom size)

theorem PoolShort.heard {v : WaiterId}
    (h : PoolShort bb size v p) (hf : bb.fair = false) (hh : Heard bb bb') :
    PoolShort bb' size v p := by
  refine ⟨fun hyes => absurd ((hh.fair.trans hf).symm.trans hyes) Bool.false_ne_true, fun _ => ?_⟩
  obtain ⟨c, hp, hopen⟩ := h.legacy hf
  refine ⟨c, hp, fun hstill => ?_⟩
  have hbefore : bb.closed c = false := by
    by_contra hclosed
    exact ne_true_of_eq_false hstill (hh.closed c (Bool.not_eq_false _ ▸ hclosed))
  obtain ⟨hwake, hroom⟩ := hopen hbefore
  rcases hh.wake c hwake with hclosed | ⟨hwake', hle⟩
  · exact absurd hclosed (ne_true_of_eq_false hstill)
  · refine ⟨hwake', fun hnow => hroom ?_⟩
    unfold LegacyRoom at hnow ⊢
    rw [hh.total] at hnow
    omega

/-- Why a refused add would be refused again. -/
inductive Stuck (b : AckBuffer) (bb : ByteBudget) (size : Nat) (w : Option WaiterId)
    (p : Option ChanId) : Prop where
  | window : b.isAvailable = false → Stuck b bb size w p
  | bytes : b.accounting = true → b.exceeds size = true → b.heldFlagged = true →
      Stuck b bb size w p
  | pool (v : WaiterId) : b.accounting = true → b.shared = true → b.heldFlagged = true →
      w = some v → PoolShort bb size v p → Stuck b bb size w p

theorem Stuck.congr (h : Stuck b bb size w p) (hgate : b'.gate = b.gate) :
    Stuck b' bb size w p := by
  simp only [gate, Prod.mk.injEq] at hgate
  obtain ⟨⟨-, -, havail⟩, ⟨hbytes, hflag, hfirst, -⟩, hacc, hmax, hshared⟩ := hgate
  have hheld : b'.heldFlagged = b.heldFlagged := by
    unfold heldFlagged
    rw [hflag, hfirst]
  have hexc : b'.exceeds size = b.exceeds size := by
    unfold exceeds
    rw [hmax, hbytes]
  cases h with
  | window hno => exact .window (havail.trans hno)
  | bytes ha he hh => exact .bytes (hacc.trans ha) (hexc.trans he) (hheld.trans hh)
  | pool v ha hs hh hw hp => exact .pool v (hacc.trans ha) (hshared.trans hs) (hheld.trans hh) hw hp

theorem Stuck.budget (h : Stuck b bb size w p)
    (hp : ∀ v, w = some v → PoolShort bb size v p → PoolShort bb' size v p) :
    Stuck b bb' size w p := by
  cases h with
  | window hno => exact .window hno
  | bytes ha he hh => exact .bytes ha he hh
  | pool v ha hs hh hw hshort => exact .pool v ha hs hh hw (hp v hw hshort)

/-- A refusal by a fair budget leaves a waiter behind. -/
theorem fair_refused {n : Nat} {force : Bool} {og : Option GroupId} (hf : bb.fair = true)
    (hno : (bb.reserveFor n force og w).2.ok = false) :
    ∃ v, (bb.reserveFor n force og w).2.waiter = some v := by
  have hqueue : ∀ (bb : ByteBudget) (g : GroupId) (removed : Bool),
      (bb.admitOrQueue n force g removed).2.ok = false →
        ∃ v, (bb.admitOrQueue n force g removed).2.waiter = some v := by
    intro bb g removed hno
    unfold admitOrQueue at hno ⊢
    simp only at hno ⊢
    split_ifs at hno ⊢
    exact ⟨_, rfl⟩
  unfold reserveFor at hno ⊢
  rw [hf] at hno ⊢
  simp only [Bool.not_true, Bool.false_eq_true, if_false] at hno ⊢
  cases w with
  | none => exact hqueue _ _ _ hno
  | some w =>
    simp only at hno ⊢
    split_ifs at hno ⊢
    · exact hqueue _ _ _ hno
    · exact ⟨w, rfl⟩

/-- A refusal says why. -/
theorem Refuses.stuck {waiter : Option WaiterId} (h : Refuses b bb size waiter bb' w)
    (hfair : bb'.fair = bb.fair) :
    Stuck b bb' size w (w.bind fun v => (bb'.waiterAt v).wake) := by
  cases h with
  | unavailable hno => exact .window hno
  | full _ hacc hexc hheld => exact .bytes hacc hexc hheld
  | wait _ hacc hshared hno =>
    have hheld : b.heldFlagged = true := by
      -- a forced request is not refused
      by_contra hnot
      rw [Bool.not_eq_true] at hnot
      rw [hnot, Bool.not_false, (reserveFor_force ..).1 rfl] at hno
      cases hno
    cases hf : bb.fair with
    | true =>
      obtain ⟨v, hv⟩ := fair_refused hf hno
      refine .pool v hacc hshared hheld hv ⟨fun _ => ?_, fun hnot => ?_⟩
      · rw [hv]
        rfl
      · exact absurd (hnot.symm.trans (hfair.trans hf)) Bool.false_ne_true
    | false =>
      obtain ⟨v, c, hv, hwake, hlegacy, hroom⟩ := legacy_refused hf hno
      rw [hv]
      exact .pool v hacc hshared hheld rfl
        ⟨fun _ => rfl, fun _ => ⟨c, hwake, fun _ => ⟨hlegacy, hroom⟩⟩⟩

/-- The budget refuses the waiter while its channel is open. In a fair budget the channel of a
waiter is closed once it is granted. -/
theorem PoolShort.refused {v : WaiterId} (h : PoolShort bb size v p)
    (hopen : p.any bb.closed = false)
    (hgrant : bb.fair = true →
      ∃ c, (bb.waiterAt v).wake = some c ∧ bb.closed c = (bb.waiterAt v).granted)
    (og : Option GroupId) : (bb.reserveFor size false og (some v)).2.ok = false := by
  cases hf : bb.fair with
  | true =>
    obtain ⟨c, hwake, hclosed⟩ := hgrant hf
    rw [← h.fair hf, hwake] at hopen
    have hno : (bb.waiterAt v).granted = false := hclosed.symm.trans hopen
    unfold reserveFor
    rw [hf]
    simp only [Bool.not_true, Bool.false_eq_true, if_false, hno]
  | false =>
    obtain ⟨c, rfl, hroom⟩ := h.legacy hf
    exact legacy_refuses hf (hroom hopen).2 og (some v)

/-- The add would be refused again while both channels are open. -/
theorem Stuck.refused (h : Stuck b bb size w p) (hopen : p.any bb.closed = false)
    (hgrant : ∀ v, w = some v → bb.fair = true →
      ∃ c, (bb.waiterAt v).wake = some c ∧ bb.closed c = (bb.waiterAt v).granted)
    (e : DataMessage) (receipt : Option ReceiptId) (m : Nat) :
    (b.tryAddWithReceiptLocked bb e size w receipt m).ok = false := by
  unfold tryAddWithReceiptLocked
  cases havail : b.isAvailable with
  | false => rfl
  | true =>
    simp only [Bool.not_true, Bool.false_eq_true, if_false]
    obtain ⟨hacc, hwhy⟩ : b.accounting = true ∧ ((b.exceeds size && b.heldFlagged) = true ∨
        b.shared = true ∧ (bb.reserveFor size (!b.heldFlagged) b.group w).2.ok = false) := by
      cases h with
      | window hno => exact absurd (hno.symm.trans havail) Bool.false_ne_true
      | bytes hacc hexc hheld =>
        refine ⟨hacc, .inl ?_⟩
        rw [hexc, hheld]
        rfl
      | pool v hacc hshared hheld hw hshort =>
        subst hw
        refine ⟨hacc, .inr ⟨hshared, ?_⟩⟩
        rw [hheld]
        exact hshort.refused hopen (hgrant v rfl) b.group
    have hcheck := checkBytes_step b bb size w
    generalize b.checkBytes bb size w = r at hcheck ⊢
    cases hcheck with
    | unmetered hno => exact absurd (hno.symm.trans hacc) Bool.false_ne_true
    | full _ _ _ => rfl
    | alone forced step _ hno hshared =>
      rcases hwhy with hyes | ⟨hyes, -⟩
      · exact absurd (hno.symm.trans hyes) Bool.false_ne_true
      · exact absurd (hshared.symm.trans hyes) Bool.false_ne_true
    | wait _ _ _ _ => rfl
    | charged forced step _ hno _ hok =>
      rcases hwhy with hyes | ⟨-, hrefused⟩
      · exact absurd (hno.symm.trans hyes) Bool.false_ne_true
      · exact absurd (hrefused.symm.trans hok) Bool.false_ne_true

/-! ## Admissions -/

theorem admitLocked_wake (e : DataMessage) (size : Nat) (overshot : Bool)
    (receipt : Option ReceiptId) (m : Nat) :
    (b.admitLocked e size overshot receipt m).wake = b.wake ∧
      (b.admitLocked e size overshot receipt m).wakeClosed = b.wakeClosed ∧
      (b.admitLocked e size overshot receipt m).firstSeqNum = b.firstSeqNum ∧
      (b.admitLocked e size overshot receipt m).nextIndexFree = b.nextIndexFree + 1 := by
  have hled := admitLocked_ledger (b := b) e size overshot receipt m
  generalize b.admitLocked e size overshot receipt m = b' at hled ⊢
  have hwake := congrArg AckBuffer.wake hled
  have hclosed := congrArg wakeClosed hled
  have hfirst := congrArg firstSeqNum hled
  have hfree := congrArg nextIndexFree hled
  simp only [ledger, chargeLocal, place, noteFlag, noteEscape] at hwake hclosed hfirst hfree
  exact ⟨hwake, hclosed, hfirst, hfree⟩

/-- An admission leaves a refused add where it is: the buffer holds more bytes, and a request at
least as new. -/
theorem Stuck.admitted {n : Nat} {e : DataMessage} {overshot : Bool} {receipt : Option ReceiptId}
    {m : Nat} (h : Stuck b bb size w p) (havail : b.isAvailable = true)
    (hsum : b.bytes + n + size < 2 ^ 64) (hnum : e.seqNum ≠ 0 ∧ b.firstSeqNum ≤ e.seqNum) :
    Stuck (b.admitLocked e n overshot receipt m) bb size w p := by
  have hset := admitLocked_settings (b := b) e n overshot receipt m
  simp only [settingsView, Prod.mk.injEq] at hset
  obtain ⟨⟨hacc', hmax, hshared', -⟩, -⟩ := hset
  obtain ⟨hbytes, -, -, hflag⟩ := admitLocked_counters (b := b) e n overshot receipt m
  obtain ⟨-, -, hfirst, -⟩ := admitLocked_wake (b := b) e n overshot receipt m
  have hheld : b.heldFlagged = true →
      (b.admitLocked e n overshot receipt m).heldFlagged = true := by
    intro hheld
    unfold heldFlagged at hheld ⊢
    rw [hflag, hfirst, decide_eq_true_eq]
    split_ifs
    · exact hnum
    · exact of_decide_eq_true hheld
  cases h with
  | window hno => exact absurd (hno.symm.trans havail) Bool.false_ne_true
  | bytes hacc hexc hh =>
    refine .bytes (hacc'.trans hacc) ?_ (hheld hh)
    unfold exceeds at hexc ⊢
    rw [decide_eq_true_eq] at hexc ⊢
    have hold : b.bytes + size < 2 ^ 64 := by omega
    have hnew : b.bytes + n < 2 ^ 64 := by omega
    rw [hmax, hbytes, if_pos hacc, add64_eq hnew, add64_eq hsum]
    rw [add64_eq hold] at hexc
    exact ⟨hexc.1, by omega⟩
  | pool v hacc hshared hh hw hshort =>
    exact .pool v (hacc'.trans hacc) (hshared'.trans hshared) (hheld hh) hw hshort

/-- The round of a drain that parks finds messages in an open buffer. -/
theorem drainSection_listens (b : AckBuffer) (first ctxDone : Bool)
    (h : (b.drainSection first ctxDone).2 = .parked c) :
    (b.drainSection first ctxDone).1.Listens c fun b => b.isClosed = false ∧ 0 < b.nextIndexFree := by
  have hround : ∀ b₁ : AckBuffer, (b₁.drainRound ctxDone).2 = .parked c →
      (b₁.drainRound ctxDone).1.Listens c fun b => b.isClosed = false ∧ 0 < b.nextIndexFree := by
    intro b₁ hparked _
    unfold drainRound at hparked ⊢
    split_ifs at hparked ⊢ with hfree
    unfold drainReason at hparked ⊢
    cases hclosed : b₁.isClosed with
    | true =>
      rw [hclosed, if_pos rfl] at hparked
      cases hparked
    | false =>
      rw [hclosed, if_neg Bool.false_ne_true] at hparked
      rw [if_neg Bool.false_ne_true]
      split_ifs at hparked ⊢
      exact ⟨congrArg some (DrainRound.parked.inj hparked), hclosed, Nat.pos_of_ne_zero hfree⟩
  unfold drainSection at h ⊢
  split_ifs at h ⊢
  · exact hround _ h
  · exact hround b h

end AckBuffer

end UspClient
