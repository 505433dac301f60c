import OSLabs.Trap.Saving64

/-! # What a context resumes, with 64 bits

`__am_iret` loads everything that was saved, and new contexts are made to be loaded.
-/

namespace OSLabs.Trap

open Lib (ByteMemory)
open Lib.ByteMemory

variable {s : Machine64} {image : Image Reg64 64} {ctx : BitVec 64} {mem mem' : ByteMemory 64}

/-! ## Leaving a trap -/

theorem contextAt64_congr (h : ∀ b, Within ctx 176 b → mem' b = mem b) :
    contextAt64 mem' ctx = contextAt64 mem ctx := by
  have hwords : words mem' ctx 22 = words mem ctx 22 := words_congr h (by decide)
  have hload : ∀ i < 22, load mem' (slot ctx i) = load mem (slot ctx i) := by
    intro i hi
    have heq : (words mem' ctx 22)[i]? = some (load mem' (slot ctx i)) := getElem?_words hi
    rw [hwords, getElem?_words hi] at heq
    exact (Option.some.inj heq).symm
  unfold contextAt64
  congr 1
  · exact hload 0 (by decide)
  · funext r
    have hplace : r.place < 22 := by cases r <;> decide
    exact hload r.place hplace
  · exact hload 16 (by decide)
  · exact hload 17 (by decide)
  · exact hload 18 (by decide)
  · exact hload 19 (by decide)
  · exact hload 20 (by decide)
  · exact hload 21 (by decide)

def resumed64 (s : Machine64) (c : Context64) : Machine64 :=
  { s with
    regs := c.regs
    sp := c.rsp
    ip := c.rip
    flags := c.rflags
    cs := c.cs.setWidth 16
    ds := c.ss.setWidth 16
    es := c.ss.setWidth 16
    ss := c.ss.setWidth 16 }

theorem amIret64_segments (image : Image Reg64 64) (s : Machine64) (ctx : BitVec 64) :
    ∃ regs flags, ((s.setReg .rdi ctx).pushWord image.afterCall).run [.movToSp .rdi,
        .loadSp 160 .rax, .movwToDs .rax, .movwToEs .rax, .addSp 8] =
      { s.pushWord image.afterCall with
        regs := regs
        sp := slot ctx 1
        flags := flags
        ds := (contextAt64 (s.pushWord image.afterCall).mem ctx).ss.setWidth 16
        es := (contextAt64 (s.pushWord image.afterCall).mem ctx).ss.setWidth 16 } := by
  have hss : ctx + 160 = slot ctx 20 := rfl
  have hstart : ctx + 8 = slot ctx 1 := rfl
  refine ⟨Function.update (Function.update s.regs .rdi ctx) .rax
    (load (s.pushWord image.afterCall).mem (slot ctx 20)), statusAdd s.flags ctx 8, ?_⟩
  simp only [Machine.run, List.foldl_cons, List.foldl_nil, Machine.exec, Machine.setReg,
    Machine.pushWord, Function.update_self, hss, hstart]
  rfl

theorem resume64_eq (image : Image Reg64 64) (s : Machine64) (ctx : BitVec 64) :
    resume64 image s ctx = resumed64 (s.pushWord image.afterCall)
      (contextAt64 (s.pushWord image.afterCall).mem ctx) := by
  have hcode : amIret64 = [.movToSp .rdi, .loadSp 160 .rax, .movwToDs .rax, .movwToEs .rax,
      .addSp 8] ++ savedRegs64.map .pop := rfl
  obtain ⟨regs₁, flags₁, hsegments⟩ := amIret64_segments image s ctx
  rw [resume64, hcode, Machine.run_append, hsegments]
  generalize s.pushWord image.afterCall = t
  obtain ⟨regs, hrun, hloaded, -⟩ := Machine.run_pops savedRegs64 (by decide)
    { t with
      regs := regs₁, sp := slot ctx 1, flags := flags₁
      ds := (contextAt64 t.mem ctx).ss.setWidth 16
      es := (contextAt64 t.mem ctx).ss.setWidth 16 }
  have hregs : regs = (contextAt64 t.mem ctx).regs := by
    funext r
    have hplace : savedRegs64[r.place - 1]? = some r := by cases r <;> rfl
    have hpos : 1 + (r.place - 1) = r.place := by cases r <;> rfl
    rw [hloaded _ r hplace, slot_add, hpos]
    rfl
  rw [hrun, hregs, iretq]
  simp only [slot_add]
  rfl

end OSLabs.Trap
