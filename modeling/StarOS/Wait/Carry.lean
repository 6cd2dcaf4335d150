import StarOS.Wait.Step

/-!
# Messages on their way

A message has come from a call that sends it, however long ago, and until a receive returns it the
machine carries it: in the registers of the sender, in a ring, with a blocked sender, in a delivery
under way, or in a mailbox. The machine makes no message up.

## Main results

* `Kernel.Step.carries` — whatever is carried was carried, or is sent now
* `Kernel.Step.returns` — whatever a receive returns was carried
-/

namespace StarOS

namespace Kernel

variable {k k' : Kernel} {e : Event} {km : KMessage} {t : TaskId} {p : Parcel}

/-- Message `km` is on its way. -/
inductive Carries (k : Kernel) : KMessage → Prop
  /-- A task is about to send it. -/
  | sending {t : TaskId} {ep : ℕ} {km : KMessage} {mayBlock : Bool} :
      k.pc t = .send ep km mayBlock → Carries k km
  /-- It is in a ring, or with a blocked sender. -/
  | stored {ep : ℕ} {p : Parcel} : p ∈ (k.endpoint ep).stored → Carries k p.km
  | flight {a : Actor} {t : TaskId} {p : Parcel} : .deliver t p ∈ k.jobsOf a → Carries k p.km
  | mailbox {t : TaskId} {p : Parcel} : (k.task t).mailbox = some p → Carries k p.km

theorem not_carries_boot (clock : Option ℕ) : ¬ (boot clock).Carries km := by
  intro h
  cases h with
  | sending h | mailbox h => cases h
  | stored h => simp [boot, Endpoint.stored] at h
  | @flight a _ _ h => cases a <;> simp [boot, jobsOf, Pc.todo] at h

/-- Every message in an endpoint was carried. -/
theorem Step.carries_stored (hs : Step k e k') {ep : ℕ} (h : p ∈ (k'.endpoint ep).stored) :
    k.Carries p.km := by
  have hupdate : ∀ {ep₀ : ℕ} {e' : Endpoint Parcel},
      p ∈ (Function.update k.endpoint ep₀ e' ep).stored → (p ∈ e'.stored → k.Carries p.km) →
      k.Carries p.km := by
    intro ep₀ e' h he'
    rcases eq_or_ne ep ep₀ with rfl | hne
    · exact he' (by simpa using h)
    · rw [Function.update_of_ne hne] at h
      exact .stored h
  cases hs with
  | allocate => exact hupdate h fun h => by cases h
  | bindNotify | cancel => exact hupdate h .stored
  | sendDeliver _ hpc hd | sendBuffered _ hpc hd | sendBlock _ hpc hd =>
    refine hupdate h fun h => ?_
    obtain h | rfl := Endpoint.mem_stored_decideSend hd h
    · exact .stored h
    · exact .sending hpc
  | recvGot _ _ hd | recvWakeSender _ _ hd | recvBlock _ _ hd | recvBlockUntil _ _ hd =>
    exact hupdate h fun h => .stored (Endpoint.mem_stored_decideRecv hd h)
  | irqJob | taskJob => exact .stored (by simpa using h)
  | _ => exact .stored h

/-- A job leaves no delivery behind. -/
theorem not_deliver_runJob {job : Job} : .deliver t p ∉ (k.runJob job).2 := by
  cases job <;> simp [runJob]

/-- So was every message in a delivery under way. -/
theorem Step.carries_flight (hs : Step k e k') {a : Actor} (h : .deliver t p ∈ k'.jobsOf a) :
    k.Carries p.km := by
  have htask : ∀ {t₀ t₁ : TaskId} {q : Pc},
      .deliver t p ∈ (Function.update k.pc t₀ q t₁).todo →
      (.deliver t p ∈ q.todo → k.Carries p.km) → k.Carries p.km := by
    intro t₀ t₁ q h hq
    rcases eq_or_ne t₁ t₀ with rfl | hne
    · exact hq (by simpa using h)
    · exact .flight (a := .task t₁) (by simpa [jobsOf, hne] using h)
  have hcore : ∀ {c₀ c₁ : CpuId} {l : List Job},
      .deliver t p ∈ Function.update k.irq c₀ l c₁ →
      (.deliver t p ∈ l → k.Carries p.km) → k.Carries p.km := by
    intro c₀ c₁ l h hl
    rcases eq_or_ne c₁ c₀ with rfl | hne
    · exact hl (by simpa using h)
    · exact .flight (a := .core c₁) (by simpa [jobsOf, hne] using h)
  cases a with
  | core c =>
    cases hs with
    | irq => exact hcore h fun h => by simp at h
    | @irqJob c₀ job rest hj =>
      refine hcore h fun h => .flight (a := .core c₀) (t := t) ?_
      have := (List.mem_append.mp h).resolve_left not_deliver_runJob
      simp [jobsOf, hj, this]
    | taskJob => exact .flight (a := .core c) (t := t) (by simpa [jobsOf] using h)
    | _ => exact .flight (a := .core c) (t := t) h
  | task t₁ =>
    cases hs with
    | tick | wakeExpired | irq | allocate | create | bindNotify | bindFail | callFail | dispatch
    | preempt | sleepPast | notifyOnExit => exact .flight (a := .task t₁) (t := t) h
    | irqJob => exact .flight (a := .task t₁) (t := t) (by simpa [jobsOf] using h)
    | @taskJob t₀ job rest f _ hpc =>
      refine htask h fun h => .flight (a := .task t₀) (t := t) ?_
      have := (List.mem_append.mp h).resolve_left not_deliver_runJob
      simp [jobsOf, Pc.todo, hpc, this]
    | @sendDeliver t₀ w ep km mayBlock e' _ hpc =>
      refine htask h fun h => ?_
      have : p = ⟨k.sends, ep, km⟩ := by
        cases hb : (k.endpoint ep).notify <;> simp_all [Pc.todo, bound]
      exact this ▸ .sending hpc
    | @sendBuffered _ ep | @recvWakeSender _ _ ep =>
      refine htask h fun h => ?_
      cases hb : (k.endpoint ep).notify <;> simp [Pc.todo, bound, hb] at h
    | @callExit t₀ =>
      refine htask h fun h => ?_
      cases hb : k.deathNotify t₀ <;> simp [Pc.todo, bound, hb] at h
    | resumeAgain _ _ _ hto =>
      refine htask h fun h => ?_
      obtain ⟨-, rfl⟩ | ⟨d, -, rfl⟩ := hto <;> cases h
    | _ => exact htask h fun h => by simp [Pc.todo] at h

/-- And every message in a mailbox. -/
theorem Step.carries_mailbox (hs : Step k e k') (h : (k'.task t).mailbox = some p) : k.Carries p.km := by
  have hupdate : ∀ {t₀ : TaskId} {x : Parking Parcel},
      (Function.update k.task t₀ x t).mailbox = some p →
      (x.mailbox = some p → k.Carries p.km) → k.Carries p.km := by
    intro t₀ x h hx
    rcases eq_or_ne t t₀ with rfl | hne
    · exact hx (by simpa using h)
    · exact .mailbox (t := t) (by simpa [hne] using h)
  have hjob : ∀ {a : Actor} {job : Job} {rest : List Job}, k.jobsOf a = job :: rest →
      ((k.runJob job).1.task t).mailbox = some p → k.Carries p.km := by
    intro a job rest ha h
    cases job with
    | signal id => exact .mailbox h
    | unblock w => exact hupdate h fun h => .mailbox (t := w) (by simpa using h)
    | deliver w q =>
      refine hupdate h fun h => ?_
      rw [Parking.mailbox_deliver, Option.some.injEq] at h
      subst h
      exact .flight (a := a) (t := w) (by simp [ha])
  cases hs with
  | wakeExpired => exact .mailbox (t := t) (by simpa using h)
  | spawn => exact hupdate h fun h => by cases h
  | dispatch | preempt | exit => exact hupdate h .mailbox
  | park => exact hupdate h fun h => .mailbox (by simpa using h)
  | resumeMessage => exact hupdate h fun h => by cases h
  | @irqJob c _ _ hj => exact hjob (a := .core c) hj h
  | @taskJob t₀ _ _ _ _ hpc => exact hjob (a := .task t₀) (by rw [jobsOf, hpc]; rfl) h
  | _ => exact .mailbox h

/-- A task about to send was already, or has just made the call. -/
theorem Step.carries_sending (hs : Step k e k') {ep : ℕ} {mayBlock : Bool}
    (h : k'.pc t = .send ep km mayBlock) :
    k.Carries km ∨ ∃ t c, e = .call t c ∧ c.message = some km := by
  cases hs with
  | tick | wakeExpired | irq | allocate | create | bindNotify | bindFail | callFail | dispatch
  | preempt | sleepPast | notifyOnExit => exact .inl (.sending h)
  | irqJob => exact .inl (.sending (t := t) (by simpa using h))
  | @callSend t₀ c ep₀ km₀ mayBlock₀ _ _ _ hc =>
    rcases eq_or_ne t t₀ with rfl | hne
    · simp only [Function.update_self, Pc.send.injEq] at h
      exact .inr ⟨_, _, rfl, h.2.1 ▸ hc⟩
    · exact .inl (.sending (t := t) (by simpa [hne] using h))
  | resumeAgain _ _ _ hto =>
    obtain ⟨-, rfl⟩ | ⟨d, -, rfl⟩ := hto <;> exact .inl (.sending (of_update h (by simp)))
  | _ => exact .inl (.sending (of_update h (by simp)))

/-- **The machine makes no message up**: whatever is carried was carried, or is sent now. -/
theorem Step.carries (hs : Step k e k') (h : k'.Carries km) :
    k.Carries km ∨ ∃ t c, e = .call t c ∧ c.message = some km := by
  cases h with
  | sending h => exact hs.carries_sending h
  | stored h => exact .inl (hs.carries_stored h)
  | flight h => exact .inl (hs.carries_flight h)
  | mailbox h => exact .inl (hs.carries_mailbox h)

/-- **Whatever a receive returns was carried.** -/
theorem Step.returns (hs : Step k e k') {ep : ℕ}
    (h : .received t ep p ∈ k'.log.drop k.log.length) : k.Carries p.km := by
  obtain ⟨new, hlog, hnew⟩ := hs.log
  rw [hlog, List.drop_left] at h
  cases hnew _ h with
  | taken hp => exact .stored (List.mem_append_left _ hp)
  | collected hp => exact .mailbox hp

end Kernel

end StarOS
