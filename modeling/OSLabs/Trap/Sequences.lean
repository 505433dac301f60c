import OSLabs.Trap.Model

/-! # Sequences of pushes and pops

What a trap saves is a block of words below the top of a stack. A sequence of pushes puts
registers in front of a block, and a sequence of pops loads them from one.
-/

namespace OSLabs.Trap

open Lib (ByteMemory)
open Lib.ByteMemory

variable {R : Type} {w : Nat} [DecidableEq R] {s : Machine R w} {mem : ByteMemory w}
  {top : BitVec w} {vs : List (BitVec w)}

namespace Machine

theorem run_cons (s : Machine R w) (i : Instr R w) (code : List (Instr R w)) :
    s.run (i :: code) = (s.exec i).run code := rfl

theorem run_append (s : Machine R w) (code code' : List (Instr R w)) :
    s.run (code ++ code') = (s.run code).run code' := List.foldl_append

/-- The registers are on the stack, the last one first, and nothing else has changed. -/
theorem run_pushes (rs : List R) (pushed : Pushed mem top s.mem s.sp vs)
    (hfit : w / 8 * (rs.length + vs.length) ≤ 2 ^ w) (hw : 8 ∣ w) :
    ∃ mem' sp', s.run (rs.map .push) = { s with mem := mem', sp := sp' } ∧
      Pushed mem top mem' sp' ((rs.map s.regs).reverse ++ vs) := by
  induction rs generalizing s vs with
  | nil => exact ⟨s.mem, s.sp, rfl, pushed⟩
  | cons r rs ih =>
      rw [List.length_cons] at hfit
      have hle : w / 8 * (vs.length + 1) ≤ w / 8 * (rs.length + 1 + vs.length) :=
        Nat.mul_le_mul_left _ (by omega)
      have hlength : rs.length + (s.regs r :: vs).length = rs.length + 1 + vs.length := by
        rw [List.length_cons]
        omega
      have hnext : Pushed mem top (s.exec (.push r)).mem (s.exec (.push r)).sp (s.regs r :: vs) :=
        pushed.push (by omega) hw _
      obtain ⟨mem', sp', hrun, hpushed⟩ := ih hnext (by rw [hlength]; exact hfit)
      refine ⟨mem', sp', ?_, ?_⟩
      · rw [List.map_cons, run_cons, hrun]
        rfl
      · rw [List.map_cons, List.reverse_cons, List.append_assoc]
        exact hpushed

/-- Each register has been loaded from its place in the block at the stack pointer. -/
theorem run_pops (rs : List R) (hnodup : rs.Nodup) (s : Machine R w) :
    ∃ regs, s.run (rs.map .pop) = { s with regs, sp := slot s.sp rs.length } ∧
      (∀ i r, rs[i]? = some r → regs r = load s.mem (slot s.sp i)) ∧
        ∀ r ∉ rs, regs r = s.regs r := by
  induction rs generalizing s with
  | nil =>
      refine ⟨s.regs, ?_, by simp, fun _ _ => rfl⟩
      rw [List.length_nil, slot_zero]
      rfl
  | cons r rs ih =>
      obtain ⟨hr, hrest⟩ := List.nodup_cons.1 hnodup
      obtain ⟨regs, hrun, hloaded, hkept⟩ := ih hrest (s.exec (.pop r))
      have hsp : (s.exec (.pop r)).sp = slot s.sp 1 := rfl
      have hregs : regs r = load s.mem s.sp := by
        rw [hkept r hr]
        exact Function.update_self r _ s.regs
      refine ⟨regs, ?_, ?_, ?_⟩
      · rw [List.map_cons, run_cons, hrun, hsp, slot_add, List.length_cons, Nat.add_comm]
        rfl
      · intro i q hq
        cases i with
        | zero =>
            have hrq : r = q := Option.some.inj hq
            rw [← hrq, hregs, slot_zero]
        | succ i =>
            rw [hloaded i q hq, hsp, slot_add, Nat.add_comm]
            rfl
      · intro q hq
        obtain ⟨hne, hq⟩ := not_or.1 (mt List.mem_cons.2 hq)
        rw [hkept q hq]
        exact Function.update_of_ne hne _ _

end Machine

end OSLabs.Trap
