import Vdetelweb.Spec.Device

/-!
# A device is not leaked

After each call `created` is to say whether the adapter holds a device of the object, and no
call is to leave behind what it should not (`Sound`). `create` fails to do so when `linkAdd`
raises, since the device has been made and the flag is not set. `destroy` takes the name, the
address and its family from the fields, which may have changed since `create`.

`sound_run_iff` says exactly which runs are sound.
-/

namespace Vdetelweb.DeviceInfo

variable {d : DeviceInfo} {c : DeviceCall}

/-! ## The ways in which a call ends -/

theorem create_of_created (h : d.created = true) (f g : Option Exc) : d.call (.create f g) = (.ret (), d) := by
  simp [call, create, Act.bind_apply, h]

/-- `createDevice` raises. -/
theorem create_of_raise (h : d.created = false) (e : Exc) (g : Option Exc) :
    d.call (.create (some e) g) = (.raise e 96, d) := by
  simp [call, create, Act.bind_apply, h, callContext]

/-- The object when the adapter has made its device. -/
def made (d : DeviceInfo) : DeviceInfo :=
  { d with context := d.context.createDevice d.device_type d.device_name d.device_path }

/-- What is added to it. -/
def link (d : DeviceInfo) : Link := ⟨d.is_ipv6, d.device_name, d.address, d.netmask⟩

theorem create_plain (h : d.created = false) (haddress : truthy d.address = false) (g : Option Exc) :
    d.call (.create none g) = (.ret (), { d.made with created := true }) := by
  simp [call, create, Act.bind_apply, h, callContext, haddress, made]

/-- `linkAdd` raises, and the device stays. -/
theorem create_of_link_raise (h : d.created = false) (haddress : truthy d.address = true) (e : Exc) :
    d.call (.create none (some e)) = (.raise e (if d.is_ipv6 then 100 else 102), d.made) := by
  simp [call, create, Act.bind_apply, h, callContext, haddress, made]

theorem create_with_link (h : d.created = false) (haddress : truthy d.address = true) :
    d.call (.create none none) =
      (.ret (), { d.made with context := d.made.context.linkAdd d.link, created := true }) := by
  simp [call, create, Act.bind_apply, h, callContext, haddress, made, link]

theorem destroy_of_not_created (h : d.created = false) (f g : Option Exc) :
    d.call (.destroy f g) = (.ret (), d) := by
  simp [call, destroy, Act.bind_apply, h]

/-- `linkDel` raises. -/
theorem destroy_of_link_raise (h : d.created = true) (haddress : truthy d.address = true) (e : Exc)
    (g : Option Exc) : d.call (.destroy (some e) g) = (.raise e (if d.is_ipv6 then 113 else 115), d) := by
  simp [call, destroy, Act.bind_apply, h, callContext, haddress]

/-- The object when `linkDel` has been called, if it is. -/
def unlinked (d : DeviceInfo) : DeviceInfo :=
  if truthy d.address then { d with context := d.context.linkDel d.link.key } else d

/-- `deleteDevice` raises. -/
theorem destroy_of_raise (h : d.created = true) {f : Option Exc} (hf : truthy d.address = true → f = none)
    (e : Exc) : d.call (.destroy f (some e)) = (.raise e 117, d.unlinked) := by
  cases haddress : truthy d.address with
  | false => simp [call, destroy, Act.bind_apply, h, callContext, haddress, unlinked]
  | true => simp [call, destroy, Act.bind_apply, h, callContext, haddress, unlinked, link, Link.key, hf haddress]

theorem destroy_done (h : d.created = true) {f : Option Exc} (hf : truthy d.address = true → f = none) :
    d.call (.destroy f none) = (.ret (), { d.unlinked with
      context := d.unlinked.context.deleteDevice d.device_name, created := false }) := by
  cases haddress : truthy d.address with
  | false => simp [call, destroy, Act.bind_apply, h, callContext, haddress, unlinked]
  | true => simp [call, destroy, Act.bind_apply, h, callContext, haddress, unlinked, link, Link.key, hf haddress]

/-! ## Sound calls -/

/-- **The call leaves nothing behind.** -/
structure Sound (d : DeviceInfo) (c : DeviceCall) : Prop where
  /-- The flag says whether the adapter holds a device of the object. -/
  flag : (d.step c).created = true ↔ (d.step c).context.devices ≠ []
  /-- A `create` that raises leaves no device. -/
  create : ∀ f g e line, c = .create f g → (d.call c).1 = .raise e line → (d.step c).context.devices = []
  /-- A `destroy` that returns leaves neither device nor address. -/
  destroy : ∀ f g, c = .destroy f g → (d.call c).1 = .ret () →
    (d.step c).context.devices = [] ∧ (d.step c).context.addresses = []
  /-- The address that is removed is the one that was added. -/
  removed : (d.step c).context.removed = d.context.removed ∨ ∃ l, d.context.added = some l ∧
    (d.step c).context.removed = d.context.removed ++ [l.key]
  /-- A call that has returned has no further effect when it is repeated. -/
  createAgain : ∀ f g, c = .create f g → (d.call c).1 = .ret () →
    ∀ f' g', (d.step c).call (.create f' g') = (.ret (), d.step c)
  destroyAgain : ∀ f g, c = .destroy f g → (d.call c).1 = .ret () →
    ∀ f' g', (d.step c).call (.destroy f' g') = (.ret (), d.step c)

/-- **The condition on a call**: `linkAdd` does not raise when the device has been made; `destroy`
gets past `linkDel` only with the address that was added, and past `deleteDevice` without one only
if none was added, and with the name of the device. -/
def Careful (d : DeviceInfo) : DeviceCall → Prop
  | .create f g => d.created = false → f = none → truthy d.address = true → g = none
  | .destroy f g => d.created = true →
    (truthy d.address = true → f = none → d.context.added.map Link.key = some d.link.key) ∧
    (truthy d.address = false → g = none →
      d.context.addresses = [] ∧ ∃ device ∈ d.context.devices, device.name = d.device_name)
  | _ => True

/-- Nothing is held, or a device with at most the address that was added to it. -/
inductive Orderly (d : DeviceInfo) : Prop
  | absent (created : d.created = false) (devices : d.context.devices = []) (addresses : d.context.addresses = [])
  | present (device : Device) (created : d.created = true) (devices : d.context.devices = [device])
    (addresses : ∀ l ∈ d.context.addresses, d.context.addresses = [l] ∧ d.context.added = some l)
    (name : ∀ l ∈ d.context.added, l.name = device.name)

theorem Orderly.flag (h : Orderly d) : d.created = true ↔ d.context.devices ≠ [] := by
  cases h with
  | absent hcreated hdevices => simp [hcreated, hdevices]
  | present device hcreated hdevices => simp [hcreated, hdevices]

/-- A call that leaves the flag and the adapter alone. -/
theorem Orderly.of_same {d' : DeviceInfo} (h : Orderly d) (hcreated : d'.created = d.created)
    (hcontext : d'.context = d.context) : Orderly d' := by
  cases h with
  | absent hc hdevices haddresses =>
    exact .absent (by rw [hcreated, hc]) (by rw [hcontext, hdevices]) (by rw [hcontext, haddresses])
  | present device hc hdevices haddresses hname =>
    exact .present device (by rw [hcreated, hc]) (by rw [hcontext, hdevices]) (by rwa [hcontext]) (by rwa [hcontext])

/-- A setter sets nothing but fields of its own. -/
theorem setter_same (hcreate : ∀ f g, c ≠ .create f g) (hdestroy : ∀ f g, c ≠ .destroy f g) :
    (d.step c).created = d.created ∧ (d.step c).context = d.context := by
  cases c with
  | create f g => exact absurd rfl (hcreate f g)
  | destroy f g => exact absurd rfl (hdestroy f g)
  | with_address s => cases s <;> exact ⟨rfl, rfl⟩
  | with_netmask s => cases s <;> exact ⟨rfl, rfl⟩
  | _ => exact ⟨rfl, rfl⟩

theorem Orderly.sound_setter (h : Orderly d) (hcreate : ∀ f g, c ≠ .create f g)
    (hdestroy : ∀ f g, c ≠ .destroy f g) : Sound d c := by
  obtain ⟨hcreated, hcontext⟩ := setter_same (d := d) hcreate hdestroy
  refine ⟨?_, fun f g _ _ hc => absurd hc (hcreate f g), fun f g hc => absurd hc (hdestroy f g), ?_,
    fun f g hc => absurd hc (hcreate f g), fun f g hc => absurd hc (hdestroy f g)⟩
  · rw [hcreated, hcontext]
    exact h.flag
  · exact Or.inl (congrArg _ hcontext)

section

variable {d' : DeviceInfo} {f g : Option Exc} {e : Exc} {line : ℕ}

theorem step_eq {o : Out Unit} (hcall : d.call c = (o, d')) : d.step c = d' := congrArg Prod.snd hcall

theorem sound_create_ret (hcall : d.call (.create f g) = (.ret (), d')) (hcreated : d'.created = true)
    (hdevices : d'.context.devices ≠ []) (hremoved : d'.context.removed = d.context.removed) :
    Sound d (.create f g) := by
  have hstep := step_eq hcall
  refine ⟨?_, fun _ _ _ _ _ hraise => ?_, fun _ _ hc => (by cases hc), Or.inl ?_, fun _ _ _ _ => ?_,
    fun _ _ hc => (by cases hc)⟩
  · simp [hstep, hcreated, hdevices]
  · rw [hcall] at hraise
    cases hraise
  · rw [hstep, hremoved]
  · rw [hstep]
    exact create_of_created hcreated

theorem sound_create_raise (hcall : d.call (.create f g) = (.raise e line, d')) (hcreated : d'.created = false)
    (hdevices : d'.context.devices = []) (hremoved : d'.context.removed = d.context.removed) :
    Sound d (.create f g) := by
  have hstep := step_eq hcall
  refine ⟨?_, fun _ _ _ _ _ _ => ?_, fun _ _ hc => (by cases hc), Or.inl ?_, fun _ _ _ hret => ?_,
    fun _ _ hc => (by cases hc)⟩
  · simp [hstep, hcreated, hdevices]
  · rw [hstep, hdevices]
  · rw [hstep, hremoved]
  · rw [hcall] at hret
    cases hret

/-- Nothing has been removed, or what was added. -/
def RemovesAdded (d d' : DeviceInfo) : Prop := d'.context.removed = d.context.removed ∨
  ∃ l, d.context.added = some l ∧ d'.context.removed = d.context.removed ++ [l.key]

theorem sound_destroy_ret (hcall : d.call (.destroy f g) = (.ret (), d')) (hcreated : d'.created = false)
    (hdevices : d'.context.devices = []) (haddresses : d'.context.addresses = []) (hremoved : RemovesAdded d d') :
    Sound d (.destroy f g) := by
  have hstep := step_eq hcall
  refine ⟨?_, fun _ _ _ _ hc => (by cases hc), fun _ _ _ _ => ?_, ?_, fun _ _ hc => (by cases hc),
    fun _ _ _ _ => ?_⟩
  · simp [hstep, hcreated, hdevices]
  · rw [hstep]
    exact ⟨hdevices, haddresses⟩
  · rw [hstep]
    exact hremoved
  · rw [hstep]
    exact destroy_of_not_created hcreated

theorem sound_destroy_raise (hcall : d.call (.destroy f g) = (.raise e line, d')) (hcreated : d'.created = true)
    (hdevices : d'.context.devices ≠ []) (hremoved : RemovesAdded d d') : Sound d (.destroy f g) := by
  have hstep := step_eq hcall
  refine ⟨?_, fun _ _ _ _ hc => (by cases hc), fun _ _ _ hret => ?_, ?_, fun _ _ hc => (by cases hc),
    fun _ _ _ hret => ?_⟩
  · simp [hstep, hcreated, hdevices]
  · rw [hcall] at hret
    cases hret
  · rw [hstep]
    exact hremoved
  · rw [hcall] at hret
    cases hret

end

/-! ## Steps -/

theorem Orderly.create (h : Orderly d) {f g : Option Exc} (hcareful : d.Careful (.create f g)) :
    Sound d (.create f g) ∧ Orderly (d.step (.create f g)) := by
  cases h with
  | present device hcreated hdevices haddresses hname =>
    have hcall := create_of_created hcreated f g
    rw [step_eq hcall]
    exact ⟨sound_create_ret hcall hcreated (by simp [hdevices]) rfl,
      .present device hcreated hdevices haddresses hname⟩
  | absent hcreated hdevices haddresses =>
    have hmade : d.made.context.devices = [⟨d.device_type, d.device_name, d.device_path⟩] := by
      simp [made, DeviceContext.createDevice, hdevices]
    cases f with
    | some e =>
      have hcall := create_of_raise hcreated e g
      rw [step_eq hcall]
      exact ⟨sound_create_raise hcall hcreated hdevices rfl, .absent hcreated hdevices haddresses⟩
    | none =>
      cases haddress : truthy d.address with
      | false =>
        have hcall := create_plain hcreated haddress g
        rw [step_eq hcall]
        refine ⟨sound_create_ret hcall rfl (by simp [hmade]) rfl, .present _ rfl hmade ?_ ?_⟩
        · simp [made, DeviceContext.createDevice, haddresses]
        · simp [made, DeviceContext.createDevice]
      | true =>
        obtain rfl : g = none := hcareful hcreated rfl haddress
        have hcall := create_with_link hcreated haddress
        rw [step_eq hcall]
        refine ⟨sound_create_ret hcall rfl ?_ rfl, .present _ rfl hmade ?_ ?_⟩
        · simp [DeviceContext.linkAdd, hmade]
        · simp [made, DeviceContext.createDevice, DeviceContext.linkAdd, haddresses]
        · simp [DeviceContext.linkAdd, link]

theorem unlinked_of_false (h : truthy d.address = false) : d.unlinked = d := by
  simp [unlinked, h]

theorem unlinked_of_true (h : truthy d.address = true) :
    d.unlinked = { d with context := d.context.linkDel d.link.key } := by
  simp [unlinked, h]

theorem unlinked_devices : d.unlinked.context.devices = d.context.devices := by
  cases h : truthy d.address with
  | false => rw [unlinked_of_false h]
  | true => rw [unlinked_of_true h]; rfl

theorem unlinked_added : d.unlinked.context.added = d.context.added := by
  cases h : truthy d.address with
  | false => rw [unlinked_of_false h]
  | true => rw [unlinked_of_true h]; rfl

theorem unlinked_created : d.unlinked.created = d.created := by
  cases h : truthy d.address with
  | false => rw [unlinked_of_false h]
  | true => rw [unlinked_of_true h]

theorem removesAdded_unlinked (hlink : truthy d.address = true → d.context.added.map Link.key = some d.link.key) :
    RemovesAdded d d.unlinked := by
  cases h : truthy d.address with
  | false =>
    left
    rw [unlinked_of_false h]
  | true =>
    right
    obtain ⟨l, hl, hkey⟩ := Option.map_eq_some_iff.1 (hlink h)
    refine ⟨l, hl, ?_⟩
    rw [unlinked_of_true h, hkey]
    rfl

/-- The address that was added is gone. -/
theorem unlinked_addresses (haddresses : ∀ l ∈ d.context.addresses, d.context.addresses = [l] ∧ d.context.added = some l)
    (h : truthy d.address = true) (hlink : d.context.added.map Link.key = some d.link.key) :
    d.unlinked.context.addresses = [] := by
  rw [unlinked_of_true h, DeviceContext.linkDel]
  cases hold : d.context.addresses with
  | nil => rfl
  | cons l ls =>
    obtain ⟨hone, hadded⟩ := haddresses l (by simp [hold])
    have hkey : l.key = d.link.key := by
      rw [hadded] at hlink
      exact Option.some.inj hlink
    rw [← hold, hone]
    simp [hkey]

theorem Orderly.destroy (h : Orderly d) {f g : Option Exc} (hcareful : d.Careful (.destroy f g)) :
    Sound d (.destroy f g) ∧ Orderly (d.step (.destroy f g)) := by
  cases h with
  | absent hcreated hdevices haddresses =>
    have hcall := destroy_of_not_created hcreated f g
    rw [step_eq hcall]
    exact ⟨sound_destroy_ret hcall hcreated hdevices haddresses (Or.inl rfl), .absent hcreated hdevices haddresses⟩
  | present device hcreated hdevices haddresses hname =>
    obtain ⟨hlink, hplain⟩ := hcareful hcreated
    by_cases hf : truthy d.address = true → f = none
    · have hlink : truthy d.address = true → d.context.added.map Link.key = some d.link.key :=
        fun haddress => hlink haddress (hf haddress)
      have hremoved := removesAdded_unlinked hlink
      have hgone : truthy d.address = true → d.unlinked.context.addresses = [] :=
        fun haddress => unlinked_addresses haddresses haddress (hlink haddress)
      have hdevices' : d.unlinked.context.devices = [device] := unlinked_devices.trans hdevices
      cases g with
      | some e =>
        have hcall := destroy_of_raise hcreated hf e
        rw [step_eq hcall]
        refine ⟨sound_destroy_raise hcall (unlinked_created.trans hcreated) (by simp [hdevices']) hremoved,
          .present device (unlinked_created.trans hcreated) hdevices' ?_ (by rwa [unlinked_added])⟩
        cases haddress : truthy d.address with
        | false => rwa [unlinked_of_false haddress]
        | true => simp [hgone haddress]
      | none =>
        have hcall := destroy_done hcreated hf
        -- the device that is deleted is the one that was made
        have hname : device.name = d.device_name := by
          cases haddress : truthy d.address with
          | false =>
            obtain ⟨-, device', hmem, hname'⟩ := hplain haddress rfl
            obtain rfl : device' = device := by simpa [hdevices] using hmem
            exact hname'
          | true =>
            obtain ⟨l, hl, hkey⟩ := Option.map_eq_some_iff.1 (hlink haddress)
            exact (hname l hl).symm.trans (congrArg LinkKey.name hkey)
        have hnone : (d.unlinked.context.deleteDevice d.device_name).devices = [] := by
          simp [DeviceContext.deleteDevice, hdevices', hname]
        have haddr : d.unlinked.context.addresses = [] := by
          cases haddress : truthy d.address with
          | false =>
            rw [unlinked_of_false haddress]
            exact (hplain haddress rfl).1
          | true => exact hgone haddress
        rw [step_eq hcall]
        exact ⟨sound_destroy_ret hcall rfl hnone haddr hremoved, .absent rfl hnone haddr⟩
    · -- `linkDel` raises
      rw [Classical.not_imp] at hf
      obtain ⟨haddress, hne⟩ := hf
      obtain ⟨e, rfl⟩ := Option.ne_none_iff_exists'.1 hne
      have hcall := destroy_of_link_raise hcreated haddress e g
      rw [step_eq hcall]
      exact ⟨sound_destroy_raise hcall hcreated (by simp [hdevices]) (Or.inl rfl),
        .present device hcreated hdevices haddresses hname⟩

/-- **A careful call** is sound, and leaves the object in order. -/
theorem Orderly.step (h : Orderly d) (hcareful : d.Careful c) : Sound d c ∧ Orderly (d.step c) := by
  by_cases hcreate : ∃ f g, c = .create f g
  · obtain ⟨f, g, rfl⟩ := hcreate
    exact h.create hcareful
  · by_cases hdestroy : ∃ f g, c = .destroy f g
    · obtain ⟨f, g, rfl⟩ := hdestroy
      exact h.destroy hcareful
    · have hcreate : ∀ f g, c ≠ .create f g := fun f g hc => hcreate ⟨f, g, hc⟩
      have hdestroy : ∀ f g, c ≠ .destroy f g := fun f g hc => hdestroy ⟨f, g, hc⟩
      obtain ⟨hcreated, hcontext⟩ := setter_same (d := d) hcreate hdestroy
      exact ⟨h.sound_setter hcreate hdestroy, h.of_same hcreated hcontext⟩

/-- **A sound call** is careful. -/
theorem Orderly.careful (h : Orderly d) (hsound : Sound d c) : d.Careful c := by
  cases c with
  | create f g =>
    rintro hcreated rfl haddress
    by_contra hg
    obtain ⟨e, rfl⟩ := Option.ne_none_iff_exists'.1 hg
    have hcall := create_of_link_raise hcreated haddress e
    have hdevices := hsound.create _ _ _ _ rfl (congrArg Prod.fst hcall)
    rw [step_eq hcall] at hdevices
    simp [made, DeviceContext.createDevice] at hdevices
  | destroy f g =>
    intro hcreated
    constructor
    · rintro haddress rfl
      have hkey : (d.step (.destroy none g)).context.removed = d.context.removed ++ [d.link.key] := by
        cases g with
        | some e => rw [step_eq (destroy_of_raise hcreated (fun _ => rfl) e), unlinked_of_true haddress]; rfl
        | none => rw [step_eq (destroy_done hcreated fun _ => rfl), unlinked_of_true haddress]; rfl
      rcases hsound.removed with hsame | ⟨l, hl, hlog⟩
      · rw [hkey] at hsame
        simp at hsame
      · rw [hkey, List.append_cancel_left_eq, List.singleton_inj] at hlog
        rw [hl, hlog]
        rfl
    · rintro haddress rfl
      have hcall := destroy_done hcreated (f := f) (by simp [haddress])
      obtain ⟨hdevices, haddresses⟩ := hsound.destroy _ _ rfl (congrArg Prod.fst hcall)
      rw [step_eq hcall] at hdevices haddresses
      simp only [unlinked_of_false haddress, DeviceContext.deleteDevice] at hdevices haddresses
      cases h with
      | absent hnot => rw [hcreated] at hnot; cases hnot
      | present device _ hone =>
        refine ⟨haddresses, device, by simp [hone], ?_⟩
        by_contra hname
        simp [hone, hname] at hdevices
  | _ => trivial

/-! ## Runs -/

/-- **A run of calls on a new object is sound** exactly when each call is careful. -/
theorem sound_run_iff (device_type device_name device_path address netmask : Option Bytes) (is_ipv6 : Bool)
    (calls : List DeviceCall) :
    Runs.Along step Sound (new device_type device_name device_path address netmask is_ipv6) calls ↔
      Runs.Along step Careful (new device_type device_name device_path address netmask is_ipv6) calls := by
  have hiff : ∀ d c, Orderly d → (Sound d c ↔ d.Careful c) :=
    fun d c h => ⟨h.careful, fun hcareful => (h.step hcareful).1⟩
  have hstep : ∀ d c, Orderly d → d.Careful c → Orderly (d.step c) :=
    fun d c h hcareful => (h.step hcareful).2
  exact Runs.along_congr hiff hstep calls _ (.absent rfl rfl rfl)

/-- The address is refused. -/
def refused : List DeviceCall :=
  [.with_name (some "vd0".toList), .with_address (some "10.0.0.1".toList), .create none (some .runtimeError)]

theorem leaked_refused : ¬ Runs.Along step Sound (new none none none none none false) refused := by
  rintro ⟨-, -, h, -⟩
  have hdevices := h.create none (some .runtimeError) .runtimeError 102 rfl (by decide)
  exact absurd hdevices (by decide)

end Vdetelweb.DeviceInfo
