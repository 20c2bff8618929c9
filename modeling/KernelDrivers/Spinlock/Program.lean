import KernelDrivers.Framework.ForkedCalls
import KernelDrivers.Spinlock.Plain

namespace KernelDrivers.Spinlock.Program

open Framework Plain

def SZ : Nat := 512

def PROCESS_NR : Nat := 200

/-- `snprintf(buf, SZ, "[process <%d>...]", getpid())`. -/
def buf (pid : Int32) : String :=
  String.ofList (("[process <" ++ toString pid.toInt ++ ">...]").toList.take (SZ - 1))

/-- The error that `perror("ioctl")` tells, if there is one. -/
def perror (ret : Int) : Option Int := if ret < 0 then some (-ret) else none

/-- The driver of locks/spinlock/spinlock while no process is in it. -/
abbrev Idle : Type :=
  Callers.Rest .flag (ioctl locksSpinlock) served (Rep locksSpinlock) (Mid locksSpinlock)

/-- `main` of app.c, run on the driver; `pid` gives the numbers of the processes. -/
def machine (pid : Nat → Int32) (drv : Idle) :
    Machine (Family (Shared Bool Dev String Local Int Nat) (Caller Int) (Option Int))
      (FamilyAct Unit) :=
  Family.machine (callers .flag (ioctl locksSpinlock) (fun p => buf (pid p)) perror) PROCESS_NR
    drv.shared

/-- Lines that are counted up from `count` on. -/
def numberedFrom (D : Printer) (count : Int32) (strs : List String) : List String :=
  strs.mapIdx fun i str => D.format str (count + Int32.ofNat i)

variable {D : Printer}

theorem numbered_append (strs more : List String) :
    numbered D (strs ++ more) =
      numbered D strs ++ numberedFrom D (D.first + Int32.ofNat strs.length) more := by
  rw [numbered, List.mapIdx_append, numberedFrom, numbered]
  congr 1
  apply List.mapIdx_eq_mapIdx_iff.mpr
  intro i hi
  rw [Nat.add_comm, Int32.ofNat_add, Int32.add_assoc]

theorem blocks_append (strs more : List String) :
    blocks D (strs ++ more) = blocks D strs ++ blocks D more := List.flatMap_append

theorem length_blocks (strs : List String) : (blocks D strs).length = D.lines * strs.length := by
  simp [blocks, List.length_flatMap, Nat.mul_comm]

/-- What further calls append to the log. -/
theorem Rep.append {strs more : List String} {dev dev' : Dev} (h : Rep D strs dev)
    (h' : Rep D (strs ++ more) dev') :
    dev'.log = dev.log ++ numberedFrom D dev.count (blocks D more) ∧
      dev'.count = dev.count + Int32.ofNat (D.lines * more.length) := by
  constructor
  · rw [h'.log, blocks_append, numbered_append, ← h.log, ← h.count]
  · rw [h'.count, blocks_append, List.length_append, Int32.ofNat_add, ← Int32.add_assoc, ← h.count,
      length_blocks]

theorem served_legal {strs : List String} {l : List (String × Int)}
    (h : served.LegalFrom strs l) : served.replay strs l = strs ++ l.map Prod.fst ∧
      ∀ e ∈ l, e.2 = 0 := by
  induction l generalizing strs with
  | nil => exact ⟨(List.append_nil _).symm, fun _ he => absurd he List.not_mem_nil⟩
  | cons e l ih =>
    obtain ⟨hret, hl⟩ := h
    obtain ⟨hreplay, hall⟩ := ih hl
    constructor
    · show served.replay (strs ++ [e.1]) l = _
      rw [show served.replay (strs ++ [e.1]) l = strs ++ [e.1] ++ l.map Prod.fst from hreplay,
        List.append_assoc]
      rfl
    · intro d hd
      rcases List.mem_cons.mp hd with rfl | hin
      · exact hret.symm
      · exact hall d hin

/-- What the processes have logged, and told, when each has made its call. -/
theorem ended_logged {pid : Nat → Int32} {drv : Idle} {order : List (Nat × Int)}
    {s : Family (Shared Bool Dev String Local Int Nat) (Caller Int) (Option Int)}
    (h : Callers.Ended drv (fun p => buf (pid p)) perror s order) :
    (∀ e ∈ s.out, e.2 = none) ∧
      s.shared.data.log = drv.shared.data.log ++
        numberedFrom locksSpinlock drv.shared.data.count
          ((order.map Prod.fst).flatMap fun p => List.replicate 3 (buf (pid p))) ∧
      s.shared.data.count = drv.shared.data.count + Int32.ofNat (3 * s.forked) := by
  obtain ⟨hreplay, hzero⟩ := served_legal h.legal
  have hbefore := drv.inv.rep_of_free (drv.inv.free_iff.mpr fun p c hc =>
    absurd (hc.symm.trans (drv.idle p)) (Option.some_ne_none c))
  have hafter := h.data
  rw [h.after, hreplay, List.map_map] at hafter
  obtain ⟨hlog, hcount⟩ := Rep.append hbefore hafter
  refine ⟨?_, ?_, ?_⟩
  · intro e he
    obtain ⟨a, ha, rfl⟩ := List.mem_map.mp (h.reports.mem_iff.mp he)
    have hret : a.2 = 0 := hzero _ (List.mem_map.mpr ⟨a, ha, rfl⟩)
    show perror a.2 = none
    rw [hret]
    rfl
  · rw [hlog, List.flatMap_map, blocks, List.flatMap_map]
    rfl
  · have hlength := h.each.length_eq
    rw [List.length_map, List.length_range] at hlength
    rw [hcount, List.length_map, hlength]
    rfl

/-- Any interleaving of the processes that app.c forks: the program can always come to its end,
where each process has made its call and none has complained. The kernel has then logged a block of
three lines for each of them, in some order, with its string in all three, and the lines are
numbered on from where the driver was. -/
theorem app_prints_blocks (pid : Nat → Int32) (drv : Idle) (acts : List (FamilyAct Unit)) :
    let s := (machine pid drv).run acts
    (∃ more, (∀ a ∈ more, a ≠ .parent true) ∧
      ((machine pid drv).run (acts ++ more)).parent = .returned) ∧
    (s.parent = .returned →
      (s.out.map Prod.fst).Perm (List.range s.forked) ∧ (s.forks = true → s.forked = PROCESS_NR) ∧
      (∀ e ∈ s.out, e.2 = none) ∧ (∃ after : Idle, after.shared = s.shared) ∧
      ∃ order : List Nat, order.Perm (List.range s.forked) ∧
        s.shared.data.log = drv.shared.data.log ++
          numberedFrom locksSpinlock drv.shared.data.count
            (order.flatMap fun p => List.replicate 3 (buf (pid p))) ∧
        s.shared.data.count = drv.shared.data.count + Int32.ofNat (3 * s.forked)) := by
  intro s
  refine ⟨Callers.can_return ioctl_simulates (m := left locksSpinlock)
    (fun _ _ _ _ _ _ hmid hbody => body_left hmid hbody) drv _ perror PROCESS_NR acts, ?_⟩
  intro hreturned
  obtain ⟨order, h⟩ := Callers.run_ended ioctl_simulates drv (fun p => buf (pid p)) perror hreturned
  obtain ⟨hreported, hall, -⟩ := (Family.run_tidy drv.shared acts).all_reported hreturned
  obtain ⟨hquiet, hlog, hcount⟩ := ended_logged h
  exact ⟨hreported, hall, hquiet, h.atRest, order.map Prod.fst, h.each, hlog, hcount⟩

end KernelDrivers.Spinlock.Program
