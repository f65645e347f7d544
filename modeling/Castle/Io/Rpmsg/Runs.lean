import Castle.Lib.Steps
import Castle.Io.Rpmsg.Operations

/-!
# Endpoint objects over the runs of a device

Every backend endpoint that is left is held by an endpoint object, and an object is valid exactly
when it holds the latest activation of an active slot.
-/

namespace Castle.Io.Rpmsg

open Generations Reentrant

variable {n : ℕ} {γ : Type}

/-- What an attached object holds: the activation that attached it. -/
def Endpoint.HoldsOf (e : Endpoint) (a : Activation n) : Prop :=
  e.attached = true ∧ e.slot = a.index ∧ e.generation = word 1 a.number ∧ e.holds = some a.serial

/-- What holds of the endpoint objects. -/
structure System.Held (s : System n γ) : Prop where
  attached : ∀ o, (s.objects o).attached = true → ∃ a ∈ s.device.activations, (s.objects o).HoldsOf a
  detached : ∀ o, (s.objects o).attached = false → (s.objects o).holds = none
  /-- The backend endpoint of an active slot is held by an object. -/
  owner : ∀ i c, (s.device.endpoints.get i).active = true →
    (s.device.endpoints.get i).backendHandle = some c → ∃ o, (s.objects o).holds = some c

namespace Device

variable {d d' : Device n γ}

theorem isEndpointValid_iff {e : Endpoint} : d.isEndpointValid e = true ↔ e.attached = true ∧
    ∃ i : Fin n, (i : ℕ) = e.slot ∧ (d.endpoints.get i).active = true ∧
      (d.endpoints.get i).generation = e.generation := by
  rw [isEndpointValid, Bool.and_eq_true]
  refine and_congr_right fun _ => ?_
  by_cases hslot : e.slot < n
  · rw [dif_pos hslot, Bool.and_eq_true, beq_iff_eq]
    constructor
    · exact fun h => ⟨⟨e.slot, hslot⟩, rfl, h⟩
    · rintro ⟨i, hi, h⟩
      have heq : i = ⟨e.slot, hslot⟩ := Fin.ext hi
      exact heq ▸ h
  · rw [dif_neg hslot]
    refine ⟨fun h => absurd h Bool.false_ne_true, ?_⟩
    rintro ⟨i, hi, _⟩
    exact absurd (hi ▸ i.isLt) hslot

theorem Consistent.valid_of_holds (hd : Consistent d) {e : Endpoint} {a : Activation n} {i : Fin n}
    (ha : a ∈ d.activations) (he : e.HoldsOf a) (hactive : (d.endpoints.get i).active = true)
    (hhandle : (d.endpoints.get i).backendHandle = e.holds) :
    (i : ℕ) = e.slot ∧ d.isEndpointValid e = true := by
  obtain ⟨hattached, hslot, hgeneration, hholds⟩ := he
  obtain ⟨hindex, hnumber⟩ := hd.latest_of_handle (EndpointSlot.occupied_of_active hactive) ha
    (hhandle.trans hholds)
  have hi : (i : ℕ) = e.slot := by rw [hslot, hindex]
  refine ⟨hi, isEndpointValid_iff.mpr ⟨hattached, i, hi, hactive, ?_⟩⟩
  rw [hgeneration, hnumber]
  exact hd.generations i

/-- What `detach_endpoint` leaves -/
inductive Detached (d : Device n γ) (e : Endpoint) : Device n γ → Prop
  | stale (h : d.isEndpointValid e = false) : Detached d e d
  | ended (i : Fin n) (hslot : (i : ℕ) = e.slot) (hactive : (d.endpoints.get i).active = true) :
    Detached d e (d.endSlot i)

theorem detached (d : Device n γ) (e : Endpoint) :
    Detached d e (d.detachEndpoint e).1 ∧ (d.detachEndpoint e).2.1 = {} := by
  rw [detachEndpoint]
  by_cases h : d.isEndpointValid e = true ∧ e.slot < n
  · rw [dif_pos h]
    obtain ⟨_, i, hi, hactive, _⟩ := isEndpointValid_iff.mp h.1
    have heq : i = ⟨e.slot, h.2⟩ := Fin.ext hi
    exact ⟨.ended _ rfl (heq ▸ hactive), rfl⟩
  · rw [dif_neg h]
    refine ⟨.stale ?_, rfl⟩
    rw [← Bool.not_eq_true]
    intro hvalid
    obtain ⟨_, i, hi, _⟩ := isEndpointValid_iff.mp hvalid
    exact h ⟨hvalid, hi ▸ i.isLt⟩

theorem Detached.shrunk {e : Endpoint} (h : Detached d e d') (hd : Sound d) : Shrunk d d' := by
  cases h with
  | stale => exact .refl hd
  | ended i _ hactive => exact hd.endSlot hactive

theorem Detached.gone {e : Endpoint} {a : Activation n} (h : Detached d e d') (hd : Sound d)
    (ha : a ∈ d.activations) (he : e.HoldsOf a) (i : Fin n)
    (hactive : (d'.endpoints.get i).active = true) : (d'.endpoints.get i).backendHandle ≠ e.holds := by
  intro hhandle
  have hsame := (h.shrunk hd).active i hactive
  rw [hsame] at hactive hhandle
  obtain ⟨hi, hvalid⟩ := hd.consistent.valid_of_holds ha he hactive hhandle
  cases h with
  | stale hstale => exact absurd (hstale.symm.trans hvalid) Bool.false_ne_true
  | ended j hslot hj =>
    obtain rfl : i = j := Fin.ext (hi.trans hslot.symm)
    rw [← hsame, endSlot_inactive] at hactive
    exact absurd hactive Bool.false_ne_true

end Device

namespace Endpoint

variable {d : Device n γ}

theorem destroy_spec (e : Endpoint) (d : Device n γ) : Device.Detached d e (e.destroy d).1 ∧
    ((e.destroy d).2.1 = {} ∨ (e.destroy d).2.1 = e ∧ e.attached = false) := by
  rw [destroy]
  by_cases hattached : e.attached = true
  · rw [if_neg (by simp [hattached])]
    obtain ⟨hdetached, hnew⟩ := Device.detached d e
    exact ⟨hdetached, Or.inl hnew⟩
  · rw [if_pos (by simp [hattached])]
    rw [Bool.not_eq_true] at hattached
    refine ⟨.stale ?_, Or.inr ⟨rfl, hattached⟩⟩
    rw [Device.isEndpointValid, hattached, Bool.false_and]

theorem create_attempt (e : Endpoint) (d : Device n γ) (options : Options) (backendReady : Bool)
    (serviceName : Option (List UInt8)) (localAddress remoteAddress : Address)
    (onReceive onUnbind : Option γ) (creation : Device.Creation) :
    Device.Attempt d e
      (e.create d options backendReady serviceName localAddress remoteAddress onReceive onUnbind creation).1
      (e.create d options backendReady serviceName localAddress remoteAddress onReceive onUnbind
        creation).2.1 := by
  rw [create]
  by_cases hattached : e.attached = true
  · rw [if_pos hattached]
    exact .refused
  · rw [if_neg hattached]
    exact Device.attempt d options e backendReady serviceName localAddress remoteAddress onReceive
      onUnbind creation

end Endpoint

namespace System

variable {s : System n γ} {d' : Device n γ}

theorem held_new : Held ({} : System n γ) where
  attached _ h := absurd h Bool.false_ne_true
  detached _ _ := rfl
  owner i c h := by
    rw [Table.get_replicate] at h
    exact absurd h Bool.false_ne_true

theorem Held.device (hs : Held s) (hactivations : d'.activations = s.device.activations)
    (hslots : ∀ i, (d'.endpoints.get i).active = true → (s.device.endpoints.get i).active = true ∧
      (d'.endpoints.get i).backendHandle = (s.device.endpoints.get i).backendHandle) :
    Held { s with device := d' } where
  attached o ho := by
    rw [hactivations]
    exact hs.attached o ho
  detached := hs.detached
  owner i c hactive hhandle :=
    hs.owner i c (hslots i hactive).1 ((hslots i hactive).2.symm.trans hhandle)

theorem Held.detach (hs : Held s) (hd : s.device.Sound) {o : ℕ}
    (h : Device.Detached s.device (s.objects o) d') {objects : ℕ → Endpoint}
    (hold : ∀ o', objects o' = {} ∨ ∃ o'', objects o' = s.objects o'')
    (hkeep : ∀ o', o' ≠ o → ∃ o'', objects o'' = s.objects o') : Held ⟨d', objects⟩ where
  attached o' ho' := by
    dsimp only at ho' ⊢
    rw [(h.shrunk hd).activations]
    rcases hold o' with heq | ⟨o'', heq⟩
    · rw [heq] at ho'
      exact absurd ho' Bool.false_ne_true
    · rw [heq] at ho' ⊢
      exact hs.attached o'' ho'
  detached o' ho' := by
    dsimp only at ho' ⊢
    rcases hold o' with heq | ⟨o'', heq⟩
    · rw [heq]
    · rw [heq] at ho' ⊢
      exact hs.detached o'' ho'
  owner i c hactive hhandle := by
    dsimp only at hactive hhandle ⊢
    have hsame := (h.shrunk hd).active i hactive
    obtain ⟨o', ho'⟩ := hs.owner i c (hsame ▸ hactive) (hsame ▸ hhandle)
    by_cases hne : o' = o
    · subst hne
      cases hattached : (s.objects o').attached with
      | false => exact absurd (ho'.symm.trans (hs.detached o' hattached)) (by simp)
      | true =>
        obtain ⟨a, ha, hholds⟩ := hs.attached o' hattached
        exact absurd (hhandle.trans ho'.symm) (h.gone hd ha hholds i hactive)
    · obtain ⟨o'', heq⟩ := hkeep o' hne
      exact ⟨o'', (congrArg Endpoint.holds heq).trans ho'⟩

theorem Held.attempt (hs : Held s) (hd : s.device.Sound) {o : ℕ} {e : Endpoint}
    (h : Device.Attempt s.device (s.objects o) d' e) : Held ⟨d', Function.update s.objects o e⟩ := by
  cases h with
  | refused =>
    rw [Function.update_eq_self]
    exact hs
  | failed i hfree hslots hfreed hactivations _ _ =>
    rw [Function.update_eq_self]
    refine hs.device hactivations fun j hj => ?_
    have hji : j ≠ i := by
      rintro rfl
      rw [(hfreed ((hd.consistent.regular j).idle hfree)).active] at hj
      exact Bool.false_ne_true hj
    rw [hslots j hji] at hj ⊢
    exact ⟨hj, rfl⟩
  | attached i hfree hendpoint _ hslots localAddress source onReceive onUnbind hslot hactivations _ _ _ =>
    have hnew : Endpoint.HoldsOf ⟨true, i, (s.device.endpoints.get i).generation, some s.device.created⟩
        (⟨i, (s.device.endpoints.get i).steps, s.device.created⟩ : Activation n) :=
      ⟨rfl, rfl, hd.consistent.generations i, rfl⟩
    have hupdate : ∀ o', o' ≠ o → Function.update s.objects o
        ⟨true, i, (s.device.endpoints.get i).generation, some s.device.created⟩ o' = s.objects o' :=
      fun o' ho' => Function.update_of_ne ho' _ _
    constructor
    · intro o' ho'
      dsimp only at ho' ⊢
      rw [hactivations]
      by_cases hne : o' = o
      · rw [hne, Function.update_self]
        exact ⟨_, List.mem_cons_self, hnew⟩
      · rw [hupdate o' hne] at ho' ⊢
        obtain ⟨a, ha, hholds⟩ := hs.attached o' ho'
        exact ⟨a, List.mem_cons_of_mem _ ha, hholds⟩
    · intro o' ho'
      dsimp only at ho' ⊢
      by_cases hne : o' = o
      · rw [hne, Function.update_self] at ho'
        exact absurd ho' (by simp)
      · rw [hupdate o' hne] at ho' ⊢
        exact hs.detached o' ho'
    · intro j c hactive hhandle
      dsimp only at hactive hhandle ⊢
      by_cases hji : j = i
      · rw [hji, hslot] at hhandle
        refine ⟨o, ?_⟩
        rw [Function.update_self]
        exact hhandle
      · rw [hslots j hji] at hactive hhandle
        obtain ⟨o', ho'⟩ := hs.owner j c hactive hhandle
        have hne : o' ≠ o := by
          rintro rfl
          rw [hs.detached o' hendpoint] at ho'
          cases ho'
        refine ⟨o', ?_⟩
        rw [hupdate o' hne]
        exact ho'

end System
end Castle.Io.Rpmsg

/-!
## Every run of a device

A slot counts the callbacks on the call stack that are its own, so that a slot without one can be
used again.
-/

namespace Castle.Io.Rpmsg

open Generations Reentrant

namespace System

variable {n : ℕ} {γ : Type} {s : System n γ} {options : Options}

/-- What a call leaves -/
inductive Performed (s : System n γ) : System n γ × List (Running n γ) → Prop
  | quiet {s' : System n γ} (hsound : s'.device.Sound) (hheld : s'.Held)
    (h : Device.Undisturbed s.device s'.device) : Performed s (s', [])
  | started (i : Fin n) (kind : CallbackKind) (hactive : (s.device.endpoints.get i).active = true)
    (hsome : ((s.device.endpoints.get i).callback kind).callable.isSome = true) :
    Performed s ({ s with device :=
        s.device.modifySlot i fun slot => { slot with dispatching := slot.dispatching + 1 } },
      [⟨i, kind, (s.device.endpoints.get i).callback kind, (s.device.endpoints.get i).backendHandle⟩])

theorem performed_trampoline (hd : s.device.Sound) (hs : s.Held) {p : Device n γ × List (Running n γ)}
    (h : Device.Trampoline s.device p) : Performed s ({ s with device := p.1 }, p.2) := by
  cases h with
  | none => exact .quiet hd hs (.refl _)
  | started i kind hactive hsome => exact .started i kind hactive hsome

theorem performed (hd : s.device.Sound) (hs : s.Held) (options : Options) (call : RpmsgCall n γ) :
    Performed s (s.perform options call) := by
  cases call with
  | initializeDevice config backendReady answer =>
    obtain ⟨hsound, hendpoints, hactivations⟩ := hd.initializeDevice options config backendReady answer
    refine .quiet hsound (hs.device hactivations fun i hi => ?_) ⟨fun i => ?_, fun i _ => ?_⟩
    · rw [hendpoints] at hi ⊢
      exact ⟨hi, rfl⟩
    · dsimp only
      rw [hendpoints]
    · dsimp only
      rw [hendpoints]
      exact ⟨fun _ => rfl, rfl⟩
  | shutdown answer =>
    obtain ⟨hshrunk, _, _⟩ := hd.shutdown answer
    refine .quiet hshrunk.sound (hs.device hshrunk.activations fun i hi => ?_) hshrunk.undisturbed
    have hsame := hshrunk.active i hi
    exact ⟨hsame ▸ hi, congrArg EndpointSlot.backendHandle hsame⟩
  | create o backendReady serviceName localAddress remoteAddress onReceive onUnbind creation =>
    have h := (s.objects o).create_attempt s.device options backendReady serviceName localAddress
      remoteAddress onReceive onUnbind creation
    obtain ⟨hsound, hundisturbed⟩ := h.sound hd
    exact .quiet hsound (hs.attempt hd h) hundisturbed
  | destroy o =>
    obtain ⟨h, hnew⟩ := (s.objects o).destroy_spec s.device
    have hshrunk := h.shrunk hd
    refine .quiet hshrunk.sound (hs.detach hd h (fun o' => ?_) fun o' ho' => ?_) hshrunk.undisturbed
    · by_cases ho' : o' = o
      · rw [ho', Function.update_self]
        exact hnew.imp id fun h => ⟨o, h.1⟩
      · rw [Function.update_of_ne ho']
        exact Or.inr ⟨o', rfl⟩
    · exact ⟨o', Function.update_of_ne ho' _ _⟩
  | move target source =>
    rw [perform]
    by_cases hsame : target = source
    · rw [if_pos hsame]
      exact .quiet hd hs (.refl _)
    · rw [if_neg hsame]
      obtain ⟨h, _⟩ := (s.objects target).destroy_spec s.device
      have hshrunk := h.shrunk hd
      refine .quiet hshrunk.sound (hs.detach hd h (fun o' => ?_) fun o' ho' => ?_) hshrunk.undisturbed
      · by_cases hsource : o' = source
        · rw [hsource, Function.update_self]
          exact Or.inl rfl
        · rw [Function.update_of_ne hsource]
          by_cases htarget : o' = target
          · rw [htarget, Function.update_self]
            exact Or.inr ⟨source, rfl⟩
          · rw [Function.update_of_ne htarget]
            exact Or.inr ⟨o', rfl⟩
      · by_cases hsource : o' = source
        · refine ⟨target, ?_⟩
          rw [Function.update_of_ne hsame, Function.update_self, hsource]
        · refine ⟨o', ?_⟩
          rw [Function.update_of_ne hsource, Function.update_of_ne ho']
  | receive i message =>
    exact performed_trampoline hd hs (Device.trampoline_receive s.device options i message)
  | unbind i => exact performed_trampoline hd hs (Device.trampoline_unbind s.device i)

/-- What holds between any two steps. -/
structure Sound (m : Machine (System n γ) (Running n γ)) : Prop where
  device : m.state.device.Sound
  held : m.state.Held
  depth : ∀ i, (m.state.device.endpoints.get i).dispatching = m.stack.countP fun f => f.index = i
  intact : ∀ f ∈ m.stack, (m.state.device.endpoints.get f.index).callback f.kind = f.cell ∧
    f.cell.callable.isSome = true ∧ (m.state.device.endpoints.get f.index).backendHandle = f.endpoint

variable {m : Machine (System n γ) (Running n γ)}

theorem Sound.busy (hm : Sound m) {f : Running n γ} (hf : f ∈ m.stack) :
    0 < (m.state.device.endpoints.get f.index).dispatching := by
  rw [hm.depth]
  exact List.countP_pos_iff.mpr ⟨f, hf, decide_eq_true rfl⟩

theorem Sound.call (hm : Sound m) (a : RpmsgCall n γ) :
    Sound ⟨(m.state.perform options a).1, (m.state.perform options a).2 ++ m.stack⟩ := by
  have h := performed hm.device hm.held options a
  generalize m.state.perform options a = p at h ⊢
  cases h with
  | quiet hsound hheld h =>
    refine ⟨hsound, hheld, fun i => (h.dispatching i).trans (hm.depth i), fun f hf => ?_⟩
    obtain ⟨hcallback, hsome, hhandle⟩ := hm.intact f hf
    obtain ⟨hcallback', hhandle'⟩ := h.busy f.index (hm.busy hf)
    exact ⟨(hcallback' f.kind).trans hcallback, hsome, hhandle'.trans hhandle⟩
  | started i kind hactive hsome =>
    refine ⟨hm.device.begin hactive, hm.held.device rfl fun j hj => ?_, fun j => ?_, fun f hf => ?_⟩
    · rw [Device.get_modifySlot] at hj ⊢
      by_cases hji : j = i
      · rw [if_pos hji, hji]
        exact ⟨hactive, rfl⟩
      · rw [if_neg hji] at hj ⊢
        exact ⟨hj, rfl⟩
    · dsimp only
      rw [Device.get_modifySlot, List.singleton_append, List.countP_cons]
      by_cases hji : j = i
      · rw [if_pos hji, if_pos (decide_eq_true hji.symm)]
        exact congrArg (· + 1) (hm.depth j)
      · rw [if_neg hji, if_neg (by simpa using fun h : i = j => hji h.symm)]
        exact hm.depth j
    · have hslot : ∀ j, (∀ kind', ((m.state.device.modifySlot i fun slot =>
          { slot with dispatching := slot.dispatching + 1 }).endpoints.get j).callback kind' =
            (m.state.device.endpoints.get j).callback kind') ∧
          ((m.state.device.modifySlot i fun slot =>
            { slot with dispatching := slot.dispatching + 1 }).endpoints.get j).backendHandle =
            (m.state.device.endpoints.get j).backendHandle := by
        intro j
        rw [Device.get_modifySlot]
        by_cases hji : j = i
        · rw [if_pos hji]
          exact ⟨fun kind' => by cases kind' <;> rfl, rfl⟩
        · rw [if_neg hji]
          exact ⟨fun _ => rfl, rfl⟩
      dsimp only at hf ⊢
      rw [(hslot f.index).1, (hslot f.index).2]
      rcases List.mem_cons.mp hf with rfl | hf
      · exact ⟨rfl, hsome, rfl⟩
      · exact hm.intact f hf

theorem Sound.ret (hm : Sound m) {top : Running n γ} {rest : List (Running n γ)}
    (hstack : m.stack = top :: rest) : Sound ⟨m.state.callbackReturns top, rest⟩ := by
  have hpos : 0 < (m.state.device.endpoints.get top.index).dispatching :=
    hm.busy (hstack ▸ List.mem_cons_self)
  have hdepth : ∀ i, (m.state.device.endpoints.get i).dispatching =
      rest.countP (fun f => f.index = i) + if top.index = i then 1 else 0 := by
    intro i
    rw [hm.depth, hstack, List.countP_cons]
    simp only [decide_eq_true_eq]
  have hget : ∀ i, (m.state.callbackReturns top).device.endpoints.get i = if i = top.index then
      (m.state.device.endpoints.get i).endDispatch else m.state.device.endpoints.get i :=
    fun i => Device.get_modifySlot _ _ _ _
  have hspec := EndpointSlot.endDispatch_spec (hm.device.consistent.regular top.index) hpos
  refine ⟨hm.device.endDispatch hpos, hm.held.device rfl fun j hj => ?_, fun j => ?_, fun f hf => ?_⟩
  · rw [Device.get_modifySlot] at hj ⊢
    by_cases hji : j = top.index
    · rw [if_pos hji, hji] at hj ⊢
      rcases hspec with ⟨hkept, _⟩ | ⟨hfreed, _, _⟩
      · exact ⟨hkept.active hj, hkept.backendHandle⟩
      · exact absurd (hfreed.active.symm.trans hj) Bool.false_ne_true
    · rw [if_neg hji] at hj ⊢
      exact ⟨hj, rfl⟩
  · dsimp only
    rw [hget]
    have hj := hdepth j
    by_cases hji : j = top.index
    · rw [if_pos hji.symm] at hj
      rw [if_pos hji]
      subst hji
      rcases hspec with ⟨_, heq⟩ | ⟨hfreed, _, hone⟩
      · rw [heq]
        dsimp only
        omega
      · rw [hfreed.idle]
        omega
    · rw [if_neg fun h => hji h.symm] at hj
      rw [if_neg hji, hj, Nat.add_zero]
  · obtain ⟨hcallback, hsome, hhandle⟩ := hm.intact f (hstack ▸ List.mem_cons_of_mem _ hf)
    dsimp only
    rw [hget]
    by_cases hfi : f.index = top.index
    · -- another callback of the same slot is left
      have hcount : 0 < rest.countP fun f => f.index = top.index :=
        List.countP_pos_iff.mpr ⟨f, hf, decide_eq_true hfi⟩
      have htop := hdepth top.index
      rw [if_pos rfl] at htop
      rw [if_pos hfi]
      rw [hfi] at hcallback hhandle ⊢
      rcases hspec with ⟨_, heq⟩ | ⟨_, _, hone⟩
      · rw [heq]
        refine ⟨?_, hsome, hhandle⟩
        rw [← hcallback]
        cases f.kind <;> rfl
      · omega
    · rw [if_neg hfi]
      exact ⟨hcallback, hsome, hhandle⟩

theorem sound_step (m : Machine (System n γ) (Running n γ)) (l : Label (RpmsgCall n γ) Empty)
    (hm : Sound m) : Sound ((machine n γ options).step m l) := by
  have h := stepped (machine n γ options) m l
  generalize (machine n γ options).step m l = m' at h ⊢
  cases h with
  | idle => exact hm
  | call a _ => exact hm.call a
  | resume i => exact i.elim
  | ret hstack _ => exact hm.ret hstack

theorem sound_after (options : Options) (labels : List (Label (RpmsgCall n γ) Empty)) :
    Sound (after options labels) := by
  refine run_keeps sound_step ?_ labels
  refine ⟨⟨Device.consistent_new, Device.balanced_new⟩, held_new, fun i => ?_, fun f hf => ?_⟩
  · dsimp only
    rw [Table.get_replicate]
    rfl
  · exact absurd hf List.not_mem_nil

/-- No generation of a slot has come back to the first one. -/
def FewSteps (s : System n γ) : Prop := ∀ i, (s.device.endpoints.get i).steps + 1 < 2 ^ 32

structure LifetimeHolds (m : Machine (System n γ) (Running n γ)) : Prop where
  /-- Nothing is destroyed twice. -/
  once : m.state.device.destroyed.Nodup
  created : ∀ c ∈ m.state.device.destroyed, c < m.state.device.created
  /-- A backend endpoint that was not destroyed belongs to an active slot. -/
  live : ∀ c < m.state.device.created, c ∉ m.state.device.destroyed ↔
    ∃ i, (m.state.device.endpoints.get i).active = true ∧
      (m.state.device.endpoints.get i).backendHandle = some c
  /-- An active slot belongs to an endpoint object. -/
  owner : ∀ i, (m.state.device.endpoints.get i).active = true → m.state.device.initialized = true ∧
    ∃ o c, (m.state.objects o).holds = some c ∧ (m.state.device.endpoints.get i).backendHandle = some c
  /-- An object is valid exactly when it holds the latest activation of an active slot. -/
  valid : ∀ o, m.state.device.isEndpointValid (m.state.objects o) = true ↔
    ∃ newer a older, m.state.device.activations = newer ++ a :: older ∧ (∀ b ∈ newer, b.index ≠ a.index) ∧
      (m.state.device.endpoints.get a.index).active = true ∧ (m.state.objects o).holds = some a.serial
  /-- The callable that runs is in its storage, which was not assigned since the call. -/
  intact : ∀ f ∈ m.stack, (m.state.device.endpoints.get f.index).callback f.kind = f.cell ∧
    f.cell.callable.isSome = true
  /-- Without callbacks no slot is a zombie. -/
  zombie : m.stack = [] → ∀ i, (m.state.device.endpoints.get i).zombie = false

structure StepHolds (options : Options) (m : Machine (System n γ) (Running n γ))
    (l : Label (RpmsgCall n γ) Empty) : Prop where
  /-- A callback that starts is of a backend endpoint that was not destroyed. -/
  started : ∀ f, ((machine n γ options).step m l).stack = f :: m.stack →
    (m.state.device.endpoints.get f.index).active = true ∧
      ∃ c < m.state.device.created, f.endpoint = some c ∧ c ∉ m.state.device.destroyed
  /-- The end of an object, or a move onto it, destroys what it held. -/
  destroyed : ∀ o c, l = .call (.destroy o) ∨ (∃ source, o ≠ source ∧ l = .call (.move o source)) →
    (m.state.objects o).holds = some c → c ∈ ((machine n γ options).step m l).state.device.destroyed
  /-- A device that is shut down has destroyed everything. -/
  shutdown : ∀ answer, l = .call (.shutdown answer) →
    ((machine n γ options).step m l).state.device.initialized = false ∧
      ∀ c < ((machine n γ options).step m l).state.device.created,
        c ∈ ((machine n γ options).step m l).state.device.destroyed

theorem Sound.valid_iff (hm : Sound m) (hfew : FewSteps m.state) (o : ℕ) :
    m.state.device.isEndpointValid (m.state.objects o) = true ↔
      ∃ newer a older, m.state.device.activations = newer ++ a :: older ∧
        (∀ b ∈ newer, b.index ≠ a.index) ∧ (m.state.device.endpoints.get a.index).active = true ∧
          (m.state.objects o).holds = some a.serial := by
  have hc := hm.device.consistent
  constructor
  · intro hvalid
    obtain ⟨hattached, i, hi, hactive, hgeneration⟩ := Device.isEndpointValid_iff.mp hvalid
    obtain ⟨a, ha, _, hslot, hword, hholds⟩ := hm.held.attached o hattached
    obtain rfl : i = a.index := Fin.ext (hi.trans hslot)
    obtain ⟨newer, older, hsplit⟩ := List.append_of_mem ha
    have hle := hc.ledger.le a ha
    have hfew := hfew a.index
    have hone : (1 : UInt32).toNat = 1 := rfl
    have hnumber : a.number = (m.state.device.endpoints.get a.index).steps := by
      refine (word_inj ?_ ?_).mp ((hword.symm.trans hgeneration.symm).trans (hc.generations _))
      · omega
      · omega
    refine ⟨newer, a, older, hsplit, ?_, hactive, hholds⟩
    exact (hc.ledger.number_eq_iff hsplit (EndpointSlot.occupied_of_active hactive)).mp hnumber
  · rintro ⟨newer, a, older, hsplit, hnewer, hactive, hholds⟩
    have ha : a ∈ m.state.device.activations := hsplit ▸ List.mem_append_right _ List.mem_cons_self
    have hoccupied := EndpointSlot.occupied_of_active hactive
    have hhandle := hc.handle a ha hoccupied ((hc.ledger.number_eq_iff hsplit hoccupied).mpr hnewer)
    have hattached : (m.state.objects o).attached = true := by
      rw [← Bool.not_eq_false]
      intro h
      rw [hm.held.detached o h] at hholds
      cases hholds
    obtain ⟨b, hb, hof⟩ := hm.held.attached o hattached
    exact (hc.valid_of_holds hb hof hactive (hhandle.trans hholds.symm)).2

theorem Sound.lifetimeHolds (hm : Sound m) (hfew : FewSteps m.state) : LifetimeHolds m where
  once := hm.device.balanced.once
  created := hm.device.balanced.known
  live := hm.device.balanced.live
  owner i hactive := by
    refine ⟨hm.device.consistent.initialized i hactive, ?_⟩
    obtain ⟨a, _, _, _, hhandle⟩ :=
      hm.device.consistent.handle_of_occupied (EndpointSlot.occupied_of_active hactive)
    obtain ⟨o, ho⟩ := hm.held.owner i _ hactive hhandle
    exact ⟨o, a.serial, ho, hhandle⟩
  valid := hm.valid_iff hfew
  intact f hf := ⟨(hm.intact f hf).1, (hm.intact f hf).2.1⟩
  zombie hempty i := by
    rw [← Bool.not_eq_true]
    intro hzombie
    have hpos := ((hm.device.consistent.regular i).zombie hzombie).2
    rw [hm.depth, hempty] at hpos
    exact Nat.lt_irrefl 0 hpos

theorem step_call (m : Machine (System n γ) (Running n γ)) (a : RpmsgCall n γ) :
    (machine n γ options).step m (.call a) =
      ⟨(m.state.perform options a).1, (m.state.perform options a).2 ++ m.stack⟩ := by
  have hcontrol : (machine n γ options).inControl m = true := by
    rw [Reentrant.inControl]
    cases m.stack.head? <;> rfl
  rw [Reentrant.step, if_pos hcontrol]
  rfl

theorem Sound.destroyed (hm : Sound m) {d' : Device n γ} {o c : ℕ}
    (h : Device.Detached m.state.device (m.state.objects o) d')
    (hc : (m.state.objects o).holds = some c) : c ∈ d'.destroyed := by
  have hshrunk := h.shrunk hm.device
  have hattached : (m.state.objects o).attached = true := by
    rw [← Bool.not_eq_false]
    intro hfalse
    rw [hm.held.detached o hfalse] at hc
    cases hc
  obtain ⟨a, ha, hof⟩ := hm.held.attached o hattached
  have hserial : c = a.serial := Option.some.inj (hc.symm.trans hof.2.2.2)
  have hcreated : c < d'.created := by
    rw [hshrunk.created, hserial]
    exact hm.device.consistent.created a ha
  by_contra hlive
  obtain ⟨i, hactive, hhandle⟩ := (hshrunk.sound.balanced.live c hcreated).mp hlive
  exact h.gone hm.device ha hof i hactive (hhandle.trans hc.symm)

theorem Sound.started (hm : Sound m) (l : Label (RpmsgCall n γ) Empty) (f : Running n γ)
    (hf : ((machine n γ options).step m l).stack = f :: m.stack) :
    (m.state.device.endpoints.get f.index).active = true ∧
      ∃ c < m.state.device.created, f.endpoint = some c ∧ c ∉ m.state.device.destroyed := by
  have hlength := congrArg List.length hf
  have h := stepped (machine n γ options) m l
  generalize (machine n γ options).step m l = m' at h hf hlength
  cases h with
  | idle =>
    rw [List.length_cons] at hlength
    omega
  | resume i => exact i.elim
  | @ret top rest hstack =>
    rw [hstack] at hlength
    change rest.length = rest.length + 1 + 1 at hlength
    omega
  | call a _ =>
    have hperformed := performed hm.device hm.held options a
    change (m.state.perform options a).2 ++ m.stack = f :: m.stack at hf
    generalize m.state.perform options a = p at hperformed hf
    cases hperformed with
    | quiet =>
      have hlength := congrArg List.length hf
      simp at hlength
    | started i kind hactive hsome =>
      obtain rfl := (List.cons.inj hf).1
      refine ⟨hactive, ?_⟩
      obtain ⟨b, hb, _, _, hhandle⟩ :=
        hm.device.consistent.handle_of_occupied (EndpointSlot.occupied_of_active hactive)
      have hcreated := hm.device.consistent.created b hb
      exact ⟨b.serial, hcreated, hhandle, (hm.device.balanced.live _ hcreated).mpr ⟨i, hactive, hhandle⟩⟩

theorem Sound.stepHolds (hm : Sound m) (l : Label (RpmsgCall n γ) Empty) :
    StepHolds options m l where
  started := hm.started l
  destroyed o c hl hc := by
    obtain ⟨hdetached, _⟩ := (m.state.objects o).destroy_spec m.state.device
    have hdestroyed := hm.destroyed hdetached hc
    rcases hl with rfl | ⟨source, hne, rfl⟩
    · rw [step_call]
      exact hdestroyed
    · rw [step_call, perform, if_neg hne]
      exact hdestroyed
  shutdown answer hl := by
    obtain ⟨hshrunk, hinitialized, hinactive⟩ := hm.device.shutdown answer
    rw [hl, step_call]
    exact ⟨hinitialized, fun c hc => hshrunk.sound.balanced.all_destroyed hinactive hc⟩

/-- The lifetimes of a device with fewer than `2 ^ 32 - 1` generations on each slot. -/
theorem endpoint_lifetime (options : Options) (labels : List (Label (RpmsgCall n γ) Empty))
    (hfew : FewSteps (after options labels).state) : LifetimeHolds (after options labels) ∧
      AtEach labels fun before l => StepHolds options (after options before) l :=
  ⟨(sound_after options labels).lifetimeHolds hfew,
    fun before l _ => (sound_after options before).stepHolds l⟩

/-- An endpoint that is destroyed by its own callback, while the device is shut down and started
again -/
def nestedRun : List (Label (RpmsgCall 1 ℕ) Empty) :=
  [.call (.initializeDevice (some { sharedMemory := true, sharedMemorySize := 4096 }) false .ok),
    .call (.create 0 true (some [65]) rpmsgAddrAny rpmsgAddrAny (some 7) (some 8) (.ok (true, 2000))),
    .call (.receive 0 ⟨some [1], 1⟩), .call (.unbind 0), .call (.destroy 0), .ret,
    .call (.shutdown .ok), .call (.initializeDevice none false .ok), .ret,
    .call (.create 0 true (some [65]) 2000 rpmsgAddrAny (some 9) none (.ok (true, 2000)))]

theorem endpoint_lifetime_nestedRun : LifetimeHolds (after {} nestedRun) ∧
    AtEach nestedRun fun before l => StepHolds {} (after {} before) l :=
  endpoint_lifetime {} nestedRun (by unfold FewSteps; decide)

end System
end Castle.Io.Rpmsg
