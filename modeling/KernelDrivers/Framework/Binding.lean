import KernelDrivers.Framework.Machine

namespace KernelDrivers.Framework

/-- A bus: its devices and drivers in the order of their registration, and which driver each device
is bound to. -/
structure Bus (D R : Type*) where
  devices : List D
  drivers : List R
  bound : D → Option R

inductive Registration (D R : Type*) where
  | device (d : D)
  | driver (r : R)

namespace Bus

variable {D R : Type*} [DecidableEq D] (accepts : D → R → Bool)

/-- Each device that is not bound is offered to the drivers in turn. -/
def attach (b : Bus D R) : Bus D R :=
  { b with
    bound := fun d =>
      if d ∈ b.devices ∧ (b.bound d).isNone then b.drivers.find? (accepts d) else b.bound d }

def register (b : Bus D R) : Registration D R → Bus D R
  | .device d => attach accepts { b with devices := b.devices ++ [d] }
  | .driver r => attach accepts { b with drivers := b.drivers ++ [r] }

def machine : Machine (Bus D R) (Registration D R) := ⟨⟨[], [], fun _ => none⟩, register accepts⟩

/-- No two drivers of a list of registrations accept the same device. -/
def Exclusive (order : List (Registration D R)) : Prop :=
  ∀ d r r', .driver r ∈ order → .driver r' ∈ order → accepts d r → accepts d r' → r = r'

/-- The registrations are in the lists of the bus, and a device is bound to the drivers that accept
it. -/
structure Settled (order : List (Registration D R)) (b : Bus D R) : Prop where
  devices : ∀ d, d ∈ b.devices ↔ .device d ∈ order
  drivers : ∀ r, r ∈ b.drivers ↔ .driver r ∈ order
  bound : ∀ d r, b.bound d = some r ↔ d ∈ b.devices ∧ r ∈ b.drivers ∧ accepts d r

variable {accepts}

/-- Bindings to drivers that accept their devices, of which no device has two, are completed by an
offer of the devices that are not bound. -/
theorem attach_bound {b : Bus D R}
    (hone : ∀ d r r', r ∈ b.drivers → r' ∈ b.drivers → accepts d r → accepts d r' → r = r')
    (hbound : ∀ d r, b.bound d = some r → d ∈ b.devices ∧ r ∈ b.drivers ∧ accepts d r) (d : D)
    (r : R) :
    (attach accepts b).bound d = some r ↔ d ∈ b.devices ∧ r ∈ b.drivers ∧ accepts d r := by
  simp only [attach]
  cases hb : b.bound d with
  | some r' =>
    obtain ⟨hd, hr', ha'⟩ := hbound d r' hb
    rw [if_neg (by simp), Option.some.injEq]
    constructor
    · rintro rfl
      exact ⟨hd, hr', ha'⟩
    · rintro ⟨-, hr, ha⟩
      exact hone d r' r hr' hr ha' ha
  | none =>
    by_cases hd : d ∈ b.devices
    · rw [if_pos ⟨hd, rfl⟩]
      constructor
      · intro hfind
        exact ⟨hd, List.mem_of_find?_eq_some hfind, List.find?_some hfind⟩
      · rintro ⟨-, hr, ha⟩
        obtain ⟨r', hfind⟩ := Option.isSome_iff_exists.mp (List.find?_isSome.mpr ⟨r, hr, ha⟩)
        have hr' := List.mem_of_find?_eq_some hfind
        have ha' : accepts d r' = true := List.find?_some hfind
        rw [hfind, hone d r' r hr' hr ha' ha]
    · rw [if_neg fun h => hd h.1]
      exact iff_of_false nofun fun h => hd h.1

theorem register_settled {order : List (Registration D R)} {b : Bus D R}
    (h : Settled accepts order b) (a : Registration D R)
    (hone : Exclusive accepts (order ++ [a])) :
    Settled accepts (order ++ [a]) (register accepts b a) := by
  cases a with
  | device d =>
    have hdevices (d' : D) : d' ∈ b.devices ++ [d] ↔ .device d' ∈ order ++ [.device d] := by
      simp [h.devices]
    have hdrivers (r : R) : r ∈ b.drivers ↔ .driver r ∈ order ++ [.device d] := by
      simp [h.drivers]
    refine ⟨hdevices, hdrivers, attach_bound ?_ ?_⟩
    · exact fun d' r r' hr hr' => hone d' r r' ((hdrivers r).mp hr) ((hdrivers r').mp hr')
    · intro d' r hbound
      obtain ⟨hd, hr, ha⟩ := (h.bound d' r).mp hbound
      exact ⟨List.mem_append_left _ hd, hr, ha⟩
  | driver q =>
    have hdevices (d : D) : d ∈ b.devices ↔ .device d ∈ order ++ [.driver q] := by
      simp [h.devices]
    have hdrivers (r : R) : r ∈ b.drivers ++ [q] ↔ .driver r ∈ order ++ [.driver q] := by
      simp [h.drivers]
    refine ⟨hdevices, hdrivers, attach_bound ?_ ?_⟩
    · exact fun d r r' hr hr' => hone d r r' ((hdrivers r).mp hr) ((hdrivers r').mp hr')
    · intro d r hbound
      obtain ⟨hd, hr, ha⟩ := (h.bound d r).mp hbound
      exact ⟨hd, List.mem_append_left _ hr, ha⟩

omit [DecidableEq D] in
theorem Exclusive.of_append {order more : List (Registration D R)}
    (h : Exclusive accepts (order ++ more)) : Exclusive accepts order :=
  fun d r r' hr hr' => h d r r' (List.mem_append_left _ hr) (List.mem_append_left _ hr')

/-- The bindings at the end of any order of registrations. -/
theorem run_settled {order : List (Registration D R)} (h : Exclusive accepts order) :
    Settled accepts order ((machine accepts).run order) := by
  have hrun := (machine accepts).run_induction
    (I := fun order b => Exclusive accepts order → Settled accepts order b)
    (fun _ => ⟨by simp [machine], by simp [machine], by simp [machine]⟩)
    (fun order a ih hone => register_settled (ih hone.of_append) a hone) order
  exact hrun h

/-- Two orders of the same registrations end in the same bindings. -/
theorem run_bound_perm {order order' : List (Registration D R)} (h : Exclusive accepts order)
    (hperm : order.Perm order') :
    ((machine accepts).run order).bound = ((machine accepts).run order').bound := by
  have h' : Exclusive accepts order' := fun d r r' hr hr' =>
    h d r r' (hperm.mem_iff.mpr hr) (hperm.mem_iff.mpr hr')
  obtain ⟨hdev, hdrv, hbound⟩ := run_settled h
  obtain ⟨hdev', hdrv', hbound'⟩ := run_settled h'
  funext d
  apply Option.ext
  intro r
  rw [hbound, hbound', hdev, hdev', hdrv, hdrv', hperm.mem_iff, hperm.mem_iff]

end Bus

end KernelDrivers.Framework
