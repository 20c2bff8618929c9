import Mathlib.Data.List.FinRange
import KernelDrivers.Irq.BottomHalf

namespace KernelDrivers.Irq

open Framework

variable {n : Nat}

abbrev Exit (n : Nat) := List (MainStmt (Obj n) (Stmt n))

/-- `free_irq_key`: the interrupts are freed from key 0 on. -/
def freeIrqKey (n : Nat) : Exit n := (List.finRange n).map fun i => .stop (.irq i)

/-- `unregister_4keys`: the interrupts are freed in `while (i--)`. -/
def unregister4keys (n : Nat) : Exit n := (List.finRange n).reverse.map fun i => .stop (.irq i)

/-- `kbuf_exit` of irq/irq_bh/tasklet, ending in `tasklet_kill(&task)`, and of
irq/irq_bh/workqueue, ending in `flush_work(&keybh.work)`. -/
def kbufExit (n : Nat) : Exit n := freeIrqKey n ++ [.stop .bh]

/-- `demo_exit` of kernel_code_v1/irq_bh/tasklet_bh, which begins with `tasklet_kill(&task)`,
and of kernel_code_v1/irq_bh/workqueue_bh, which begins with `flush_work(&keywork.work)`. -/
def demoExit (n : Nat) : Exit n := .stop .bh :: unregister4keys n

def unloadMachine (exit : Exit n) : Machine (Act n) (Handlers.Act (Obj n) Unit) :=
  (handlers n).machine (.loaded (.fresh n) exit)

theorem stopped_map (keys : List (Fin n)) :
    (keys.map fun i => (.stop (.irq i) : MainStmt (Obj n) (Stmt n))).filterMap
      MainStmt.stopped? = keys.map .irq := by
  rw [List.filterMap_map]
  exact congrFun List.filterMap_eq_map keys

theorem mem_irqs (keys : List (Fin n)) (hall : ∀ i, i ∈ keys) (o : Obj n) (ho : o ≠ .bh) :
    o ∈ keys.map Obj.irq := by
  cases o with
  | irq key => exact List.mem_map_of_mem (hall key)
  | bh => exact absurd rfl ho

theorem nodup_irqs {keys : List (Fin n)} (hn : keys.Nodup) : (keys.map Obj.irq).Nodup :=
  hn.map fun _ _ h => Obj.irq.inj h

theorem kbufExit_stops (n : Nat) :
    (kbufExit n).filterMap MainStmt.stopped? = (List.finRange n).map .irq ++ [.bh] := by
  rw [kbufExit, freeIrqKey, List.filterMap_append, stopped_map]
  rfl

theorem demoExit_stops (n : Nat) :
    (demoExit n).filterMap MainStmt.stopped? = .bh :: (List.finRange n).reverse.map .irq := by
  rw [demoExit, unregister4keys, List.filterMap_cons, stopped_map]
  rfl

theorem kbufExit_unloading (n : Nat) : (Activity.loaded (Dev.fresh n) (kbufExit n)).Unloading := by
  apply Activity.loaded_unloading _ (kbufExit_stops n)
  · intro o
    by_cases ho : o = .bh
    · simp [ho]
    · exact List.mem_append_left _ (mem_irqs _ List.mem_finRange o ho)
  · rw [List.nodup_append]
    refine ⟨nodup_irqs (List.nodup_finRange n), List.nodup_singleton _, ?_⟩
    simp
  · simp [kbufExit, freeIrqKey]

theorem demoExit_unloading (n : Nat) : (Activity.loaded (Dev.fresh n) (demoExit n)).Unloading := by
  apply Activity.loaded_unloading _ (demoExit_stops n)
  · intro o
    by_cases ho : o = .bh
    · simp [ho]
    · exact List.mem_cons_of_mem _ (mem_irqs _ (fun i => by simp) o ho)
  · rw [List.nodup_cons]
    exact ⟨by simp, nodup_irqs (List.nodup_reverse.mpr (List.nodup_finRange n))⟩
  · simp [demoExit, unregister4keys]

theorem not_feeds_self (o : Obj n) : ¬ (handlers n).Feeds o o := by
  rw [feeds_iff]
  tauto

theorem kbufExit_ordered (n : Nat) :
    Handlers.Ordered (handlers n) (.loaded (Dev.fresh n) (kbufExit n)) := by
  apply Handlers.loaded_ordered _ (kbufExit_stops n)
  · rw [List.pairwise_append]
    refine ⟨?_, List.pairwise_singleton _ _, ?_⟩
    · rw [List.pairwise_map]
      exact List.pairwise_of_forall fun i j hf => by simpa using ((feeds_iff _ _).mp hf).2
    · intro t ht o ho hf
      rw [List.mem_singleton] at ho
      exact ((feeds_iff _ _).mp hf).1 ho
  · simp [kbufExit, freeIrqKey]

/-- Whatever interrupts and bottom halves run before and between its steps, after `kbuf_exit`
no handler is registered, the bottom half is at rest, and nothing happens any more. -/
theorem kbuf_exit_quiet (n : Nat) (acts : List (Handlers.Act (Obj n) Unit)) :
    let s := (unloadMachine (kbufExit n)).run acts
    s.Returned →
      (∀ key, s.live (.irq key) = false ∧ s.running (.irq key) = none) ∧ s.Quiet .bh ∧
        ∀ more, (unloadMachine (kbufExit n)).run (acts ++ more) = s := by
  intro s hret
  obtain ⟨hquiet, hstable⟩ := Handlers.ordered_unload (Activity.loaded_idle _ _)
    (kbufExit_unloading n) (Handlers.loaded_bodied _ _) (kbufExit_ordered n) hret
  refine ⟨fun key => ?_, (hquiet .bh).2, hstable⟩
  obtain ⟨hdead, hrest⟩ := hquiet (.irq key)
  exact ⟨hdead, hrest.2⟩

/-- The exit function interrupts a bottom half that still has to count. -/
def exitWhileScheduled : List (Handlers.Act (Obj 1) Unit) :=
  [.enter (.irq 0) (), .advance (.irq 0), .advance (.irq 0), .main, .advance (.irq 0), .main,
    .main, .enter .bh (), .main, .advance .bh, .advance .bh, .advance .bh, .main]

theorem kbuf_exit_quiet_exitWhileScheduled :
    let s := (unloadMachine (kbufExit 1)).run exitWhileScheduled
    (∀ key, s.live (.irq key) = false ∧ s.running (.irq key) = none) ∧ s.Quiet .bh ∧
      ∀ more, (unloadMachine (kbufExit 1)).run (exitWhileScheduled ++ more) = s :=
  kbuf_exit_quiet 1 exitWhileScheduled rfl

end KernelDrivers.Irq
