import Mathlib.Data.List.TakeWhile
import OSLabs.Pstree.Print
import OSLabs.Pstree.Snapshot

/-! # The stat lines of the kernel

The kernel writes `pid (comm) state ppid ...`. The three parsers take the command for one
word without white space, so they find again what was written exactly for the commands
without white space; `NewNode` does not read the line of pid 0.
-/

namespace OSLabs.Pstree

open Lib

variable {sys : Sys} {pid ppid : Int} {comm rest s t w x : List Char} {state : Char}

/-- `getName(pid)`, where `malloc` returns `addr` for the name. -/
def getName (sys : Sys) (addr : Nat) (pid : Int) : Except Fault (Option Name) :=
  match sys.stat pid with
  | none => .ok none
  | some file => do
    let line ← fgets file
    let t₁ ← orFault .nullDeref (strtok line)
    let t₂ ← orFault .nullDeref (strtok t₁.2)
    let word ← orFault .unset (scanWord t₂.1)
    return some (stripParens addr word)

structure IsComm (comm : List Char) : Prop where
  short : comm.length ≤ 63
  chars : ∀ c ∈ comm, c ≠ '\n' ∧ c ≠ '\x00'

/-- The line for a process; `rest` is what follows after the pid of the parent. -/
def statLine (pid : Int) (comm : List Char) (state : Char) (ppid : Int) (rest : List Char) :
    List Char :=
  showInt pid ++ ' ' :: ('(' :: comm ++ [')'] ++ ' ' :: ([state] ++ ' ' :: (showInt ppid ++
    ' ' :: rest)))

/-- The parsers find the pid, the command and the pid of the parent. -/
def Undone (sys : Sys) (pid : Int) (comm : List Char) (ppid : Int) : Prop :=
  getPPID sys pid = .ok ppid ∧
    (∀ n, ∃ node, freshNode sys n pid = .ok (some node) ∧ node.pid = pid ∧
      node.ppid = ppid ∧ node.name.text = comm) ∧
    ∀ addr, ∃ name, getName sys addr pid = .ok (some name) ∧ name.text = comm

/-! ## Words -/

theorem strtok_word (hw : w ≠ []) (hchars : ∀ c ∈ w, c ≠ ' ') :
    strtok (w ++ ' ' :: x) = some (w, x) := by
  cases w with
  | nil => exact absurd rfl hw
  | cons c w =>
      have hc : c ≠ ' ' := hchars c (by simp)
      have htok : ∀ d ∈ c :: w, decide (d ≠ ' ') = true := fun d hd => decide_eq_true (hchars d hd)
      have hstart : (c :: w ++ ' ' :: x).dropWhile (· = ' ') = c :: w ++ ' ' :: x := by
        rw [List.cons_append, List.dropWhile_cons_of_neg (by simpa using hc)]
      rw [strtok, hstart]
      simp only [List.cons_append]
      rw [← List.cons_append, List.takeWhile_append_of_pos htok, List.dropWhile_append_of_pos htok]
      simp

theorem statTokens_words {w₁ w₂ w₃ w₄ : List Char} (h₁ : w₁ ≠ [] ∧ ∀ c ∈ w₁, c ≠ ' ')
    (h₂ : w₂ ≠ [] ∧ ∀ c ∈ w₂, c ≠ ' ') (h₃ : w₃ ≠ [] ∧ ∀ c ∈ w₃, c ≠ ' ')
    (h₄ : w₄ ≠ [] ∧ ∀ c ∈ w₄, c ≠ ' ') :
    statTokens (w₁ ++ ' ' :: (w₂ ++ ' ' :: (w₃ ++ ' ' :: (w₄ ++ ' ' :: x)))) = .ok (w₂, w₄) := by
  rw [statTokens, strtok_word h₁.1 h₁.2]
  simp only [orFault, bind, Except.bind, strtok_word h₂.1 h₂.2, strtok_word h₃.1 h₃.2,
    strtok_word h₄.1 h₄.2]
  rfl

theorem scanWord_chars (hw : scanWord s = some w) : ∀ c ∈ w, isspace c = false := by
  unfold scanWord at hw
  split at hw
  · cases hw
  · rw [← Option.some.inj hw]
    intro c hc
    have hnot := List.mem_takeWhile_imp hc
    simpa using hnot

theorem stripParens_chars (addr : Nat) : ∀ c ∈ (stripParens addr w).text, c ∈ w := by
  obtain ⟨cut, hcut⟩ : ∃ cut, cut = if w.getLast? = some ')' then w.dropLast else w := ⟨_, rfl⟩
  have hsub : ∀ c ∈ cut, c ∈ w := by
    intro c hc
    rw [hcut] at hc
    split at hc
    · exact List.dropLast_subset _ hc
    · exact hc
  intro c hc
  rw [stripParens, ← hcut] at hc
  by_cases hhead : w.head? = some '('
  · rw [if_pos hhead] at hc
    exact hsub c (List.mem_of_mem_drop hc)
  · rw [if_neg hhead] at hc
    exact hsub c hc

theorem getName_chars {addr : Nat} {name : Name} (hname : getName sys addr pid = .ok (some name)) :
    ∀ c ∈ name.text, isspace c = false := by
  unfold getName at hname
  split at hname
  · cases hname
  · simp only [bind_eq_ok, orFault_eq_ok] at hname
    rcases hname with ⟨line, _, t₁, _, t₂, _, word, hword, hreturn⟩
    have heq : stripParens addr word = name := Option.some.inj (Except.ok.inj hreturn)
    intro c hc
    exact scanWord_chars hword c (stripParens_chars addr c (heq ▸ hc))

theorem scanWord_word (hw : w ≠ []) (hchars : ∀ c ∈ w, isspace c = false) :
    scanWord w = some w := by
  cases w with
  | nil => exact absurd rfl hw
  | cons c w =>
      have hc : isspace c = false := hchars c (by simp)
      have hall : ∀ d ∈ c :: w, (!isspace d) = true := fun d hd => by rw [hchars d hd]; rfl
      rw [scanWord, List.dropWhile_cons_of_neg (by simp [hc]), List.takeWhile_eq_self_iff.2 hall]

theorem stripParens_comm (addr : Nat) : (stripParens addr ('(' :: comm ++ [')'])).text = comm := by
  have hlast : ('(' :: comm ++ [')']).getLast? = some ')' := List.getLast?_concat
  have hcut : ('(' :: comm ++ [')']).dropLast = '(' :: comm := List.dropLast_concat
  rw [stripParens, hlast, hcut]
  rfl

/-! ## Numbers -/

theorem isDigit_not_space {c : Char} (hc : c.isDigit = true) :
    isspace c = false ∧ c ≠ ' ' ∧ c ≠ '\n' ∧ c ≠ '-' ∧ c ≠ '+' := by
  have hne : ∀ d : Char, d.isDigit = false → c ≠ d := by
    rintro d hd rfl
    rw [hc] at hd
    cases hd
  refine ⟨?_, hne _ rfl, hne _ rfl, hne _ rfl, hne _ rfl⟩
  rw [isspace, decide_eq_false_iff_not]
  simp only [List.mem_cons, List.not_mem_nil, or_false, not_or]
  exact ⟨hne _ rfl, hne _ rfl, hne _ rfl, hne _ rfl, hne _ rfl, hne _ rfl⟩

theorem showInt_nonneg (hpid : 0 ≤ pid) : showInt pid = Nat.toDigits 10 pid.natAbs := by
  rw [showInt, if_neg (Int.not_lt.2 hpid)]

theorem showInt_digits (hpid : 0 ≤ pid) : ∀ c ∈ showInt pid, c.isDigit = true := by
  rw [showInt_nonneg hpid]
  exact fun c hc => Nat.isDigit_of_mem_toDigits (by decide) (by decide) hc

theorem showInt_ne_nil (hpid : 0 ≤ pid) : showInt pid ≠ [] := by
  rw [showInt_nonneg hpid]
  exact Nat.toDigits_ne_nil

theorem showInt_length (hpid : 0 ≤ pid) (hmax : pid < 2147483648) :
    (showInt pid).length ≤ 10 := by
  rw [showInt_nonneg hpid, Nat.length_toDigits_le_iff (by decide) (by decide)]
  omega

theorem scanInt_digits (hs : s ≠ []) (hdigits : ∀ c ∈ s, c.isDigit = true)
    (hx : x.takeWhile Char.isDigit = []) : scanInt (s ++ x) = some (digitsValue s : Int) := by
  have hscan : scanDigits (s ++ x) = some (digitsValue s) := by
    have htake : (s ++ x).takeWhile Char.isDigit = s := by
      rw [List.takeWhile_append_of_pos hdigits, hx, List.append_nil]
    rw [scanDigits, htake]
    cases s with
    | nil => exact absurd rfl hs
    | cons c s => rfl
  cases s with
  | nil => exact absurd rfl hs
  | cons c s =>
      rcases isDigit_not_space (hdigits c (by simp)) with ⟨hspace, _, _, hminus, hplus⟩
      have hstart : (c :: s ++ x).dropWhile isspace = c :: (s ++ x) := by
        rw [List.cons_append, List.dropWhile_cons_of_neg (by simp [hspace])]
      rw [scanInt, hstart]
      split
      next heq => exact absurd (List.cons.inj heq).1 hminus
      next heq => exact absurd (List.cons.inj heq).1 hplus
      next =>
        rw [← List.cons_append, hscan]
        rfl

theorem scanInt_showInt (hpid : 0 ≤ pid) (hx : x.takeWhile Char.isDigit = []) :
    scanInt (showInt pid ++ x) = some pid := by
  have hvalue : digitsValue (showInt pid) = pid.natAbs := by
    rw [showInt_nonneg hpid, digitsValue, ← Nat.ofDigitChars_eq_foldl]
    exact Nat.ofDigitChars_ten_toDigits
  rw [scanInt_digits (showInt_ne_nil hpid) (showInt_digits hpid) hx, hvalue]
  exact congrArg some (Int.natAbs_of_nonneg hpid)

/-! ## Lines -/

theorem firstLine_append (hs : ∀ c ∈ s, c ≠ '\n') : firstLine (s ++ x) = s ++ firstLine x := by
  induction s with
  | nil => rfl
  | cons c s ih =>
      rw [List.cons_append, firstLine, if_neg (hs c (by simp)),
        ih fun d hd => hs d (by simp [hd])]
      rfl

theorem fgets_append (hs : ∀ c ∈ s, c ≠ '\n') (hne : s ≠ []) (hlen : s.length < maxLineLength)
    (x : List Char) : ∃ y, fgets (s ++ x) = .ok (s ++ y) := by
  have hfit : s.length ≤ maxLineLength - 1 := Nat.le_sub_one_of_lt hlen
  refine ⟨firstLine (x.take (maxLineLength - 1 - s.length)), ?_⟩
  rw [fgets, List.take_append, List.take_of_length_le hfit, firstLine_append hs]
  cases s with
  | nil => exact absurd rfl hne
  | cons c s => rfl

/-! ## The parsers -/

/-- What `fgets` reads of a line of the kernel whose command is one word. -/
theorem fgets_statLine (hpid : 0 ≤ pid ∧ pid < 2147483648)
    (hppid : 0 ≤ ppid ∧ ppid < 2147483648) (hcomm : IsComm comm) (hstate : state ≠ '\n')
    (rest : List Char) :
    ∃ x, fgets (statLine pid comm state ppid rest) = .ok (statLine pid comm state ppid x) := by
  obtain ⟨s, hs⟩ : ∃ s, s = showInt pid ++ ' ' :: ('(' :: comm ++ [')'] ++
      ' ' :: ([state] ++ ' ' :: (showInt ppid ++ [' ']))) := ⟨_, rfl⟩
  have hline : ∀ x, statLine pid comm state ppid x = s ++ x := by
    intro x
    simp [statLine, hs]
  have hchars : ∀ c ∈ s, c ≠ '\n' := by
    intro c hc
    simp only [hs, List.mem_append, List.mem_cons, List.not_mem_nil, or_false] at hc
    rcases hc with hc | rfl | ((rfl | hc) | rfl) | rfl | rfl | rfl | hc | rfl
    · exact (isDigit_not_space (showInt_digits hpid.1 c hc)).2.2.1
    · decide
    · decide
    · exact (hcomm.chars c hc).1
    · decide
    · decide
    · exact hstate
    · decide
    · exact (isDigit_not_space (showInt_digits hppid.1 c hc)).2.2.1
    · decide
  have hlen : s.length < maxLineLength := by
    have h₁ := showInt_length hpid.1 hpid.2
    have h₂ := showInt_length hppid.1 hppid.2
    have h₃ := hcomm.short
    simp only [hs, List.length_append, List.length_cons, List.length_nil, maxLineLength]
    omega
  have hne : s ≠ [] := by simp [hs]
  rcases fgets_append hchars hne hlen rest with ⟨x, hx⟩
  exact ⟨x, by rw [hline, hline, hx]⟩

theorem comm_word (hword : ∀ c ∈ comm, isspace c = false) :
    ∀ c ∈ '(' :: comm ++ [')'], isspace c = false := by
  intro c hc
  simp only [List.cons_append, List.mem_cons, List.mem_append, List.not_mem_nil, or_false] at hc
  rcases hc with rfl | hc | rfl
  · decide
  · exact hword c hc
  · decide

theorem ne_space_of_word (hword : ∀ c ∈ w, isspace c = false) : ∀ c ∈ w, c ≠ ' ' := by
  rintro c hc rfl
  exact absurd (hword ' ' hc) (by decide)

theorem showInt_word (hpid : 0 ≤ pid) : showInt pid ≠ [] ∧ ∀ c ∈ showInt pid, c ≠ ' ' :=
  ⟨showInt_ne_nil hpid, fun c hc => (isDigit_not_space (showInt_digits hpid c hc)).2.1⟩

theorem state_chars (hstate : state.isAlpha = true) : state ≠ ' ' ∧ state ≠ '\n' := by
  constructor
  · rintro rfl
    cases hstate
  · rintro rfl
    cases hstate

section Line

variable (hpid : 0 ≤ pid ∧ pid < 2147483648) (hppid : 0 ≤ ppid ∧ ppid < 2147483648)
  (hcomm : IsComm comm) (hstate : state.isAlpha = true)
  (hword : ∀ c ∈ comm, isspace c = false)

include hpid hppid hcomm hstate hword

theorem readStat_statLine :
    readStat (statLine pid comm state ppid rest) = .ok ⟨pid, '(' :: comm ++ [')'], ppid⟩ := by
  rcases fgets_statLine hpid hppid hcomm (state_chars hstate).2 rest with ⟨x, hline⟩
  have hparens := comm_word hword
  have htokens : statTokens (statLine pid comm state ppid x) =
      .ok ('(' :: comm ++ [')'], showInt ppid) :=
    statTokens_words (showInt_word hpid.1) ⟨by simp, ne_space_of_word hparens⟩
      ⟨by simp, by simpa using (state_chars hstate).1⟩ (showInt_word hppid.1)
  have hscan : scanInt (showInt ppid) = some ppid := by
    have hend := scanInt_showInt hppid.1 (x := []) rfl
    rwa [List.append_nil] at hend
  refine bind_eq_ok.2 ⟨_, hline, bind_eq_ok.2 ⟨pid, ?_, bind_eq_ok.2 ⟨_, htokens,
    bind_eq_ok.2 ⟨_, ?_, bind_eq_ok.2 ⟨ppid, orFault_eq_ok.2 hscan, rfl⟩⟩⟩⟩⟩
  · exact orFault_eq_ok.2 (scanInt_showInt hpid.1 rfl)
  · exact orFault_eq_ok.2 (scanWord_word (by simp) hparens)

theorem getName_statLine (hstat : sys.stat pid = some (statLine pid comm state ppid rest))
    (addr : Nat) :
    getName sys addr pid = .ok (some (stripParens addr ('(' :: comm ++ [')']))) := by
  rcases fgets_statLine hpid hppid hcomm (state_chars hstate).2 rest with ⟨x, hline⟩
  have hparens := comm_word hword
  have hfirst := showInt_word hpid.1
  rw [getName, hstat]
  refine bind_eq_ok.2 ⟨_, hline, bind_eq_ok.2 ⟨_, orFault_eq_ok.2 (strtok_word hfirst.1 hfirst.2),
    bind_eq_ok.2 ⟨_, orFault_eq_ok.2 (strtok_word (by simp) (ne_space_of_word hparens)),
      bind_eq_ok.2 ⟨_, orFault_eq_ok.2 (scanWord_word (by simp) hparens), rfl⟩⟩⟩⟩

end Line

/-- The parsers undo the line exactly if the command has no white space, except for pid 0,
for which `NewNode` always returns the command `?` and the parent 0. -/
theorem undone_iff (hstat : sys.stat pid = some (statLine pid comm state ppid rest))
    (hpid : 0 ≤ pid ∧ pid < 2147483648) (hppid : 0 ≤ ppid ∧ ppid < 2147483648)
    (hcomm : IsComm comm) (hstate : state.isAlpha = true) :
    Undone sys pid comm ppid ↔
      (∀ c ∈ comm, isspace c = false) ∧ (pid ≠ 0 ∨ comm = ['?'] ∧ ppid = 0) := by
  constructor
  · rintro ⟨_, hnew, hname⟩
    constructor
    · rcases hname 0 with ⟨name, hget, htext⟩
      rw [← htext]
      exact getName_chars hget
    · by_cases hzero : pid = 0
      · subst hzero
        rcases hnew 0 with ⟨node, hnode, _, hnppid, htext⟩
        have heq := Option.some.inj (Except.ok.inj hnode)
        rw [← heq] at hnppid htext
        exact .inr ⟨htext.symm, hnppid.symm⟩
      · exact .inl hzero
  · rintro ⟨hword, hcase⟩
    have hread : readStat (statLine pid comm state ppid rest) =
        .ok ⟨pid, '(' :: comm ++ [')'], ppid⟩ :=
      readStat_statLine hpid hppid hcomm hstate hword
    refine ⟨getPPID_of_readStat hstat hread, ?_, ?_⟩
    · intro n
      by_cases hzero : pid = 0
      · rcases hcase with hne | ⟨hmark, hnone⟩
        · exact absurd hzero hne
        · subst hzero
          exact ⟨_, rfl, rfl, hnone.symm, hmark.symm⟩
      · rw [freshNode, if_neg hzero, hstat]
        exact ⟨_, bind_eq_ok.2 ⟨_, hread, rfl⟩, rfl, rfl, stripParens_comm _⟩
    · intro addr
      exact ⟨_, getName_statLine hpid hppid hcomm hstate hword hstat addr, stripParens_comm addr⟩

/-- `/proc` with one process, whose command is `comm`. -/
def oneProcess (comm : List Char) : Sys where
  dir := [['4', '2']]
  stat := fun pid =>
    if pid = 42 then some (statLine 42 comm 'S' 1 ['4', '2', '\n']) else none
  nameBuf := fun n => 1024 * n
  literal := 0

theorem undone_iff_parens : Undone (oneProcess ['(', 's', 'd', ')', '-', 'x']) 42
    ['(', 's', 'd', ')', '-', 'x'] 1 := by
  have hstat : (oneProcess ['(', 's', 'd', ')', '-', 'x']).stat 42 =
      some (statLine 42 ['(', 's', 'd', ')', '-', 'x'] 'S' 1 ['4', '2', '\n']) := rfl
  have hcomm : IsComm ['(', 's', 'd', ')', '-', 'x'] := ⟨by decide, by simp⟩
  exact (undone_iff hstat (by decide) (by decide) hcomm (by decide)).2
    ⟨by simp [isspace], .inl (by decide)⟩

/-- The command of a line may hold a space: the fourth token is then the state. -/
theorem not_undone_space : IsComm ['t', 'm', 'u', 'x', ':', ' ', 's'] ∧
    (oneProcess ['t', 'm', 'u', 'x', ':', ' ', 's']).stat 42 =
      some (statLine 42 ['t', 'm', 'u', 'x', ':', ' ', 's'] 'S' 1 ['4', '2', '\n']) ∧
    ¬ Undone (oneProcess ['t', 'm', 'u', 'x', ':', ' ', 's']) 42
      ['t', 'm', 'u', 'x', ':', ' ', 's'] 1 := by
  refine ⟨⟨by decide, by simp⟩, rfl, ?_⟩
  rintro ⟨hppid, _⟩
  cases hppid

end OSLabs.Pstree
