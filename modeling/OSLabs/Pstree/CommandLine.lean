import OSLabs.Pstree.Getopt
import OSLabs.Pstree.StatLine
import OSLabs.Pstree.Survival

/-! # The root on the command line

`cmd` makes one listing for each option, and each listing asks `GetRootPID` for its root,
which looks at the second argument as soon as there are two. The words at the places that
it looks at are those that `getopt_long` has put there by then.
-/

namespace OSLabs.Pstree

/-! ## cmd -/

def getRootPID (argv : List Word) : Except Fault Int :=
  if argv.length = 1 then .ok 1
  else if argv.length = 2 then do
    let word ← orFault .outOfRange argv[1]?
    return if word.head? = some '-' then 1 else atoi word
  else do
    let word ← orFault .outOfRange argv[2]?
    return atoi word

/-- What `cmd` prints: a tree, by the command and from the root that it was called with, or
one of the texts. -/
inductive Output where
  | tree (command : Command) (rootPID : Int)
  | version
  | usage
  deriving DecidableEq

def minusV : Word := ['-', 'V']

def minusVersion : Word := ['-', '-', 'v', 'e', 'r', 's', 'i', 'o', 'n']

def processOption (s : GetoptState) (opt : Char) : Except Fault Output :=
  if opt = 'n' then do
    let rootPID ← getRootPID s.argv
    return .tree .exeN rootPID
  else if opt = 'p' then do
    let rootPID ← getRootPID s.argv
    return .tree .exeP rootPID
  else if opt = 'V' then return .version
  else do
    let word ← orFault .outOfRange s.argv[s.optind - 1]?
    return if word = minusV ∨ word = minusVersion then .version else .usage

/-- The loop over the options: what it prints and the arguments that it leaves. -/
def cmdLoop : Nat → GetoptState → Except Fault (List Output × List Word)
  | 0, _ => .error .endless
  | fuel + 1, s =>
    match getoptLong s with
    | (none, s) => .ok ([], s.argv)
    | (some opt, s) => do
      let out ← processOption s opt
      let rest ← cmdLoop fuel s
      return (out :: rest.1, rest.2)

/-- `cmd(argc, argv)`; an option was processed if the loop has printed anything. -/
def cmd (fuel : Nat) (argv : List Word) : Except Fault (List Output) := do
  let res ← cmdLoop fuel (getoptInit argv)
  if res.1 = [] then do
    let rootPID ← getRootPID res.2
    return [.tree .cmdRoot rootPID]
  else return res.1

/-! ## Options and a pid -/

def optionWords : List Word :=
  [['-', 'n'], ['-', 'p'],
    ['-', '-', 'n', 'u', 'm', 'e', 'r', 'i', 'c', '-', 's', 'o', 'r', 't'],
    ['-', '-', 's', 'h', 'o', 'w', '-', 'p', 'i', 'd', 's']]

/-- A decimal number within `int`. -/
def IsPid (w : Word) : Prop :=
  w ≠ [] ∧ (∀ c ∈ w, c.isDigit = true) ∧ digitsValue w ≤ 2147483647

/-- The root that is asked for: the operand, or else 1. -/
def askedRoot (args : List Word) : Int :=
  match args.find? isNumeric with
  | none => 1
  | some w => digitsValue w

def rootOf : List Word → Int
  | [] => 1
  | [w] => if w.head? = some '-' then 1 else atoi w
  | _ :: w :: _ => atoi w

theorem getRootPID_eq (program : Word) (args : List Word) :
    getRootPID (program :: args) = .ok (rootOf args) := by
  match args with
  | [] => rfl
  | [w] => rfl
  | v :: w :: rest => simp [getRootPID, orFault, rootOf, bind, Except.bind, pure, Except.pure]

def commandOf (w : Word) : Command :=
  if w = ['-', 'p'] ∨ w = ['-', '-', 's', 'h', 'o', 'w', '-', 'p', 'i', 'd', 's'] then .exeP
  else .exeN

/-- The listings for the words in `rest`, where `options` and `others` are the options and
the other words before them. -/
def listings (options others : List Word) : List Word → List Output
  | [] => []
  | w :: rest =>
    if isNumeric w then listings options (others ++ [w]) rest
    else .tree (commandOf w) (rootOf (options ++ others ++ w :: rest)) ::
      listings (options ++ [w]) others rest

variable {w program : Word} {args rest options others skipped : List Word}

theorem atoi_option (hw : w ∈ optionWords) : atoi w = 0 := by
  simp only [optionWords, List.mem_cons, List.not_mem_nil, or_false] at hw
  rcases hw with rfl | rfl | rfl | rfl <;> decide

theorem not_isNumeric_option (hw : w ∈ optionWords) : isNumeric w = false := by
  simp only [optionWords, List.mem_cons, List.not_mem_nil, or_false] at hw
  rcases hw with rfl | rfl | rfl | rfl <;> decide

theorem IsPid.isNumeric (hw : IsPid w) : isNumeric w = true :=
  List.all_eq_true.2 hw.2.1

theorem IsPid.isNonoption (hw : IsPid w) : isNonoption w = true := by
  cases w with
  | nil => rfl
  | cons c w =>
      have hdash : c ≠ '-' := (isDigit_not_space (hw.2.1 c List.mem_cons_self)).2.2.2.1
      simp [Pstree.isNonoption, hdash]

theorem IsPid.atoi_eq (hw : IsPid w) : atoi w = digitsValue w := by
  have hscan := scanInt_digits hw.1 hw.2.1 (x := []) rfl
  rw [List.append_nil] at hscan
  rw [atoi, hscan]
  rfl

theorem isNumeric_iff (hw : w ∈ optionWords ∨ IsPid w) : isNumeric w = true ↔ IsPid w := by
  constructor
  · intro hnum
    rcases hw with hw | hw
    · rw [not_isNumeric_option hw] at hnum
      cases hnum
    · exact hw
  · exact IsPid.isNumeric

/-! ## The listings of a run -/

/-- `getopt_long` finds an option word behind the words that it skips, and its case makes the
listing. -/
theorem getoptLong_optionWord (hw : w ∈ optionWords) (program : Word)
    (hskip : ∀ v ∈ skipped, isNonoption v = true) (found : List Word) :
    ∃ c, getoptLong (between (program :: options) others found (skipped ++ w :: rest)) =
        (some c, between (program :: (options ++ found)) (others ++ skipped) [w] rest) ∧
      processOption (between (program :: (options ++ found)) (others ++ skipped) [w] rest) c =
        .ok (.tree (commandOf w)
          (rootOf (options ++ found ++ (others ++ skipped) ++ w :: rest))) := by
  have hargv : (between (program :: (options ++ found)) (others ++ skipped) [w] rest).argv =
      program :: (options ++ found ++ (others ++ skipped) ++ w :: rest) := by
    simp [between]
  have hcons : program :: (options ++ found) = program :: options ++ found := rfl
  have hn : processOption
        (between (program :: (options ++ found)) (others ++ skipped) [w] rest) 'n' =
      .ok (.tree .exeN (rootOf (options ++ found ++ (others ++ skipped) ++ w :: rest))) := by
    rw [processOption, if_pos rfl, hargv, getRootPID_eq]
    rfl
  have hp : processOption
        (between (program :: (options ++ found)) (others ++ skipped) [w] rest) 'p' =
      .ok (.tree .exeP (rootOf (options ++ found ++ (others ++ skipped) ++ w :: rest))) := by
    rw [processOption, if_neg (by decide), if_pos rfl, hargv, getRootPID_eq]
    rfl
  rw [hcons] at hn hp ⊢
  simp only [optionWords, List.mem_cons, List.not_mem_nil, or_false] at hw
  rcases hw with rfl | rfl | rfl | rfl
  · exact ⟨'n', getoptLong_short hskip (by decide), hn⟩
  · exact ⟨'p', getoptLong_short hskip (by decide), hp⟩
  · exact ⟨'n', getoptLong_long hskip (by decide) (by decide), hn⟩
  · exact ⟨'p', getoptLong_long hskip (by decide) (by decide), hp⟩

/-- The loop makes one listing for each option word, and leaves the arguments with the
options before the other words. -/
theorem cmdLoop_spec (program : Word) (words : ∀ w ∈ rest, w ∈ optionWords ∨ IsPid w)
    (hskip : ∀ v ∈ skipped, isNonoption v = true) {found : List Word} {fuel : Nat}
    (hfuel : rest.length < fuel) :
    cmdLoop fuel (between (program :: options) others found (skipped ++ rest)) =
      .ok (listings (options ++ found) (others ++ skipped) rest,
        program :: (options ++ found ++ (rest.filter fun w => !isNumeric w) ++
          (others ++ skipped ++ rest.filter isNumeric))) := by
  obtain ⟨fuel, rfl⟩ : ∃ f, fuel = f + 1 := ⟨fuel - 1, by omega⟩
  induction rest generalizing options others found skipped fuel with
  | nil =>
      have hend : (getoptLong (between (program :: options) others found skipped)).1 = none ∧
          (getoptLong (between (program :: options) others found skipped)).2.argv =
            program :: options ++ found ++ (others ++ skipped) := getoptLong_end hskip
      rw [List.append_nil]
      obtain ⟨next, hnext⟩ : ∃ next,
          next = getoptLong (between (program :: options) others found skipped) := ⟨_, rfl⟩
      rw [← hnext] at hend
      rw [cmdLoop, ← hnext]
      obtain ⟨opt, s⟩ := next
      rcases hend with ⟨hopt, hargv⟩
      simp only at hopt hargv
      subst hopt
      simp [hargv, listings]
  | cons w rest ih =>
      have hw := words w List.mem_cons_self
      have hrest : ∀ v ∈ rest, v ∈ optionWords ∨ IsPid v := fun v hv => words v (by simp [hv])
      rw [List.length_cons] at hfuel
      by_cases hnum : isNumeric w = true
      · -- the word is skipped by the same call
        have hskip' : ∀ v ∈ skipped ++ [w], isNonoption v = true := by
          intro v hv
          rcases List.mem_append.1 hv with hv | hv
          · exact hskip v hv
          · rw [List.mem_singleton.1 hv]
            exact ((isNumeric_iff hw).1 hnum).isNonoption
        have hloop : cmdLoop (fuel + 1)
            (between (program :: options) others found (skipped ++ [w] ++ rest)) = _ :=
          ih hrest hskip' fuel (by omega)
        simpa [listings, hnum] using hloop
      · have hoption : w ∈ optionWords := hw.resolve_right fun hpid => hnum hpid.isNumeric
        have hnum' : isNumeric w = false := eq_false_of_ne_true hnum
        rcases getoptLong_optionWord hoption program hskip found with ⟨c, hget, hproc⟩
        obtain ⟨fuel, rfl⟩ : ∃ f, fuel = f + 1 := ⟨fuel - 1, by omega⟩
        have hloop : cmdLoop (fuel + 1)
            (between (program :: (options ++ found)) (others ++ skipped) [w] ([] ++ rest)) = _ :=
          ih hrest (by simp) fuel (by omega)
        rw [List.nil_append] at hloop
        rw [cmdLoop, hget]
        simp only [hproc, hloop, bind, Except.bind, pure, Except.pure]
        simp [listings, hnum']

def CmdPrints (argv : List Word) (outs : List Output) : Prop :=
  ∃ bound, ∀ fuel > bound, cmd fuel argv = .ok outs

def printed (args : List Word) : List Output :=
  if listings [] [] args = [] then [.tree .cmdRoot (rootOf args)] else listings [] [] args

theorem listings_eq_nil (h : listings options others rest = []) :
    ∀ w ∈ rest, isNumeric w = true := by
  induction rest generalizing options others with
  | nil => simp
  | cons w rest ih =>
      rw [listings] at h
      by_cases hnum : isNumeric w = true
      · rw [if_pos hnum] at h
        exact List.forall_mem_cons.2 ⟨hnum, ih h⟩
      · rw [if_neg hnum] at h
        cases h

theorem cmd_spec (program : Word) (words : ∀ w ∈ args, w ∈ optionWords ∨ IsPid w) :
    CmdPrints (program :: args) (printed args) := by
  refine ⟨args.length, fun fuel hfuel => ?_⟩
  have hloop : cmdLoop fuel (between [program] [] [] ([] ++ args)) = _ :=
    cmdLoop_spec program words (by simp) hfuel
  rw [List.nil_append, ← getoptInit_eq] at hloop
  rw [cmd, hloop, printed]
  simp only [bind, Except.bind, List.append_nil, List.nil_append, pure, Except.pure]
  by_cases hnone : listings [] [] args = []
  · have hnum := listings_eq_nil hnone
    have hothers : args.filter isNumeric = args := List.filter_eq_self.2 hnum
    have hoptions : (args.filter fun w => !isNumeric w) = [] :=
      List.filter_eq_nil_iff.2 fun w hw => by simp [hnum w hw]
    rw [if_pos hnone, if_pos hnone, hothers, hoptions, List.nil_append, getRootPID_eq]
  · rw [if_neg hnone, if_neg hnone]

/-- The listing of an option sees the options before it, then the other words before it,
then itself and what follows. -/
theorem mem_listings {out : Output} :
    out ∈ listings options others rest ↔ ∃ pre w post, rest = pre ++ w :: post ∧
      isNumeric w = false ∧ out = .tree (commandOf w)
        (rootOf (options ++ (pre.filter fun w => !isNumeric w) ++
          (others ++ pre.filter isNumeric) ++ w :: post)) := by
  induction rest generalizing options others with
  | nil => simp [listings]
  | cons v rest ih =>
      rw [listings]
      constructor
      · intro hout
        by_cases hnum : isNumeric v = true
        · rw [if_pos hnum, ih] at hout
          rcases hout with ⟨pre, w, post, rfl, hw, rfl⟩
          exact ⟨v :: pre, w, post, rfl, hw, by simp [hnum]⟩
        · rw [if_neg hnum, List.mem_cons] at hout
          rcases hout with rfl | hout
          · exact ⟨[], v, rest, rfl, eq_false_of_ne_true hnum, by simp⟩
          · rcases ih.1 hout with ⟨pre, w, post, rfl, hw, rfl⟩
            exact ⟨v :: pre, w, post, rfl, hw, by simp [hnum]⟩
      · rintro ⟨pre, w, post, hsplit, hw, rfl⟩
        cases pre with
        | nil =>
            rcases List.cons.inj hsplit with ⟨rfl, rfl⟩
            simp [hw]
        | cons u pre =>
            rcases List.cons.inj hsplit with ⟨rfl, rfl⟩
            by_cases hnum : isNumeric v = true
            · rw [if_pos hnum, ih]
              exact ⟨pre, w, post, rfl, hw, by simp [hnum]⟩
            · rw [if_neg hnum, List.mem_cons, ih]
              exact .inr ⟨pre, w, post, rfl, hw, by simp [hnum]⟩

/-! ## The roots -/

/-- Every tree that is printed has the root that is asked for. -/
def RootsAsked (args : List Word) (outs : List Output) : Prop :=
  ∀ command rootPID, Output.tree command rootPID ∈ outs → rootPID = askedRoot args

theorem rootOf_eq (hlength : 2 ≤ args.length) : ∃ w ∈ args, rootOf args = atoi w := by
  match args, hlength with
  | _ :: w :: _, _ => exact ⟨w, by simp, rfl⟩

theorem listing_perm (pre post : List Word) (w : Word) :
    ((pre.filter fun w => !isNumeric w) ++ pre.filter isNumeric ++ w :: post).Perm
      (pre ++ w :: post) := by
  refine List.Perm.append_right _ ?_
  have hperm := List.filter_append_perm (fun w => !isNumeric w) pre
  simpa using hperm

section Roots

variable (words : ∀ w ∈ args, w ∈ optionWords ∨ IsPid w)
  (single : (args.filter isNumeric).length ≤ 1)

include single in
theorem numeric_unique {v : Word} (hv : v ∈ args) (hw : w ∈ args) (hvnum : isNumeric v = true)
    (hwnum : isNumeric w = true) : v = w := by
  have hv' : v ∈ args.filter isNumeric := List.mem_filter.2 ⟨hv, hvnum⟩
  have hw' : w ∈ args.filter isNumeric := List.mem_filter.2 ⟨hw, hwnum⟩
  match hlist : args.filter isNumeric, single with
  | [], _ => simp [hlist] at hv'
  | [u], _ =>
      rw [hlist, List.mem_singleton] at hv' hw'
      rw [hv', hw']
  | _ :: _ :: _, hle => simp at hle

include single in
theorem askedRoot_eq (hw : w ∈ args) (hnum : isNumeric w = true) :
    askedRoot args = digitsValue w := by
  rw [askedRoot]
  cases hfind : args.find? isNumeric with
  | none => exact absurd hnum (List.find?_eq_none.1 hfind w hw)
  | some v =>
      rw [numeric_unique single (List.mem_of_find?_eq_some hfind) hw (List.find?_some hfind) hnum]

theorem numeric_others {pre post : List Word}
    (single : ((pre ++ w :: post).filter isNumeric).length ≤ 1) (hnum : isNumeric w = true) :
    ∀ u ∈ pre ++ post, isNumeric u = false := by
  rw [List.filter_append, List.filter_cons_of_pos hnum, List.length_append,
    List.length_cons] at single
  have hnone : ((pre ++ post).filter isNumeric).length = 0 := by
    rw [List.filter_append, List.length_append]
    omega
  intro u hu
  exact eq_false_of_ne_true (List.filter_eq_nil_iff.1 (List.length_eq_zero_iff.1 hnone) u hu)

theorem askedRoot_none (hnum : ∀ w ∈ args, isNumeric w = false) : askedRoot args = 1 := by
  rw [askedRoot, List.find?_eq_none.2 fun w hw => by simp [hnum w hw]]

include single in
theorem askedRoot_ne_zero
    (hpositive : ∀ w ∈ args, isNumeric w = true → digitsValue w ≠ 0) : askedRoot args ≠ 0 := by
  by_cases hpid : ∃ w ∈ args, isNumeric w = true
  · rcases hpid with ⟨w, hw, hnum⟩
    rw [askedRoot_eq single hw hnum]
    exact fun hzero => hpositive w hw hnum (Int.ofNat_eq_zero.1 hzero)
  · rw [askedRoot_none fun w hw => eq_false_of_ne_true fun hnum => hpid ⟨w, hw, hnum⟩]
    decide

include words

theorem printed_root (hlength : 2 ≤ args.length) {command : Command} {rootPID : Int}
    (hout : Output.tree command rootPID ∈ printed args) : ∃ w ∈ args, rootPID = atoi w := by
  rw [printed] at hout
  by_cases hnone : listings [] [] args = []
  · rw [if_pos hnone, List.mem_singleton] at hout
    cases hout
    exact rootOf_eq hlength
  · rw [if_neg hnone, mem_listings] at hout
    rcases hout with ⟨pre, w, post, rfl, _, hout⟩
    simp only [List.nil_append, Output.tree.injEq] at hout
    have hperm := listing_perm pre post w
    rcases rootOf_eq (hperm.length_eq ▸ hlength) with ⟨v, hv, hroot⟩
    exact ⟨v, hperm.mem_iff.1 hv, hout.2.trans hroot⟩

theorem atoi_word (hw : w ∈ args) (hzero : isNumeric w = true → digitsValue w = 0) :
    atoi w = 0 := by
  rcases words w hw with hoption | hpid
  · exact atoi_option hoption
  · rw [hpid.atoi_eq, hzero hpid.isNumeric]
    rfl

theorem rootsAsked_short (hlength : args.length ≤ 1) : RootsAsked args (printed args) := by
  intro command rootPID hout
  match args, hlength with
  | [], _ =>
      have hout : Output.tree command rootPID ∈ [Output.tree .cmdRoot 1] := hout
      cases List.mem_singleton.1 hout
      rfl
  | [w], _ =>
      rcases words w List.mem_cons_self with hoption | hpid
      · have hnum := not_isNumeric_option hoption
        have hroot : rootOf [w] = 1 := by
          simp only [optionWords, List.mem_cons, List.not_mem_nil, or_false] at hoption
          rcases hoption with rfl | rfl | rfl | rfl <;> rfl
        have hout : command = commandOf w ∧ rootPID = 1 := by
          simpa [printed, listings, hnum, hroot] using hout
        rw [askedRoot_none (by simpa using hnum)]
        exact hout.2
      · have hnum := hpid.isNumeric
        have hhead : w.head? ≠ some '-' := by
          cases w with
          | nil => simp
          | cons c w =>
              simpa using (isDigit_not_space (hpid.2.1 c List.mem_cons_self)).2.2.2.1
        have hroot : rootOf [w] = digitsValue w := by rw [rootOf, if_neg hhead, hpid.atoi_eq]
        have hasked : askedRoot [w] = digitsValue w := by
          rw [askedRoot, List.find?_cons_of_pos hnum]
        have hout : command = .cmdRoot ∧ rootPID = rootOf [w] := by
          simpa [printed, listings, hnum] using hout
        rw [hasked, ← hroot]
        exact hout.2

theorem rootsAsked_zero (hlength : 2 ≤ args.length)
    (single : (args.filter isNumeric).length ≤ 1) (hw : w ∈ args) (hnum : isNumeric w = true)
    (hzero : digitsValue w = 0) : RootsAsked args (printed args) := by
  intro command rootPID hout
  rcases printed_root words hlength hout with ⟨v, hv, rfl⟩
  rw [askedRoot_eq single hw hnum, hzero]
  refine atoi_word words hv fun hvnum => ?_
  rw [numeric_unique single hv hw hvnum hnum, hzero]

theorem rootsAsked_second (hlength : args.length ≤ 3)
    (single : (args.filter isNumeric).length ≤ 1) (hw : args[1]? = some w)
    (hnum : isNumeric w = true) : RootsAsked args (printed args) := by
  have hmem : w ∈ args := List.mem_of_getElem? hw
  have hatoi := ((isNumeric_iff (words w hmem)).1 hnum).atoi_eq
  rw [RootsAsked, askedRoot_eq single hmem hnum, ← hatoi]
  intro command rootPID hout
  match args, hw with
  | v :: _ :: rest, rfl =>
      have hothers := @numeric_others w [v] rest single hnum
      have hv : isNumeric v = false := hothers v (by simp)
      match rest, hlength with
      | [], _ =>
          have hout : command = commandOf v ∧ rootPID = atoi w := by
            simpa [printed, listings, hv, hnum, rootOf] using hout
          exact hout.2
      | [u], _ =>
          have hu : isNumeric u = false := hothers u (by simp)
          have hout : command = commandOf v ∧ rootPID = atoi w ∨
              command = commandOf u ∧ rootPID = atoi w := by
            simpa [printed, listings, hv, hnum, hu, rootOf] using hout
          exact hout.elim And.right And.right

/-- Otherwise a listing comes upon an option in the second place. -/
theorem exists_root_zero (hlength : 2 ≤ args.length)
    (single : (args.filter isNumeric).length ≤ 1)
    (hsecond : 4 ≤ args.length ∨ ∀ w, args[1]? = some w → isNumeric w = false) :
    ∃ command, Output.tree command 0 ∈ printed args := by
  have hprinted : ∀ out ∈ listings [] [] args, out ∈ printed args := by
    intro out hout
    rw [printed, if_neg (List.ne_nil_of_mem hout)]
    exact hout
  have hzero : ∀ w ∈ args, isNumeric w = false → atoi w = 0 := fun w hw hnum =>
    atoi_word words hw fun h => by rw [hnum] at h; cases h
  match args, hlength with
  | v :: w :: rest, _ =>
      by_cases hw : isNumeric w = true
      · -- the pid stands second, and is third once the second option is looked at
        have hfour : 4 ≤ (v :: w :: rest).length :=
          hsecond.resolve_right fun h => absurd (h w rfl) (by simp [hw])
        match rest, hfour with
        | u :: t :: rest, _ =>
            have hothers := @numeric_others w [v] (u :: t :: rest) single hw
            have hv : isNumeric v = false := hothers v (by simp)
            have hu : isNumeric u = false := hothers u (by simp)
            have ht : isNumeric t = false := hothers t (by simp)
            have hroot : atoi u = 0 := hzero u (by simp) hu
            exact ⟨commandOf t, hprinted _ (mem_listings.2 ⟨[v, w, u], t, rest, rfl, ht, by
              simp [hv, hu, hw, rootOf, hroot]⟩)⟩
      · have hwnum := eq_false_of_ne_true hw
        have hroot : atoi w = 0 := hzero w (by simp) hwnum
        by_cases hv : isNumeric v = true
        · exact ⟨commandOf w, hprinted _ (mem_listings.2 ⟨[v], w, rest, rfl, hwnum, by
            simp [hv, rootOf, hroot]⟩)⟩
        · exact ⟨commandOf v, hprinted _ (mem_listings.2 ⟨[], v, w :: rest, rfl,
            eq_false_of_ne_true hv, by simp [rootOf, hroot]⟩)⟩

end Roots

/-- With any options and at most one pid, every tree that is printed has the root that is
asked for exactly if there is at most one argument, or the pid is 0, or the pid is the
second of at most three arguments. -/
theorem cmd_roots_iff (program : Word) (words : ∀ w ∈ args, w ∈ optionWords ∨ IsPid w)
    (single : (args.filter isNumeric).length ≤ 1) :
    ∃ outs, CmdPrints (program :: args) outs ∧
      (RootsAsked args outs ↔ args.length ≤ 1 ∨
        (∃ w ∈ args, isNumeric w = true ∧ digitsValue w = 0) ∨
        (args.length ≤ 3 ∧ ∃ w, args[1]? = some w ∧ isNumeric w = true)) := by
  refine ⟨printed args, cmd_spec program words, ?_⟩
  constructor
  · intro hroots
    by_contra hnot
    simp only [not_or, not_exists, not_and] at hnot
    rcases hnot with ⟨hlength, hpositive, hsecond⟩
    have hlate : 4 ≤ args.length ∨ ∀ w, args[1]? = some w → isNumeric w = false := by
      by_cases hfour : 4 ≤ args.length
      · exact .inl hfour
      · exact .inr fun w hw => eq_false_of_ne_true (hsecond (by omega) w hw)
    rcases exists_root_zero words (by omega) single hlate with ⟨command, htree⟩
    exact askedRoot_ne_zero single hpositive (hroots command 0 htree).symm
  · intro hcond
    by_cases hshort : args.length ≤ 1
    · exact rootsAsked_short words hshort
    · rcases hcond with hlength | ⟨w, hw, hnum, hzero⟩ | ⟨hlength, w, hw, hnum⟩
      · exact absurd hlength hshort
      · exact rootsAsked_zero words (by omega) single hw hnum hzero
      · exact rootsAsked_second words hlength single hw hnum

/-- Two options and no pid: the root is the number at the start of the second option. -/
theorem cmd_two_options : ∃ outs, CmdPrints [['p'], ['-', 'n'], ['-', 'p']] outs ∧
    ¬ RootsAsked [['-', 'n'], ['-', 'p']] outs := by
  refine ⟨[.tree .exeN 0, .tree .exeP 0], ⟨2, fun fuel hfuel => ?_⟩, ?_⟩
  · obtain ⟨fuel, rfl⟩ : ∃ f, fuel = f + 1 + 1 + 1 := ⟨fuel - 3, by omega⟩
    rfl
  · intro hroots
    exact absurd (hroots .exeN 0 (by simp)) (by decide)

theorem cmd_roots_iff_option_pid :
    ∃ outs, CmdPrints [['p'], ['-', 'n'], ['4', '2']] outs ∧
      (RootsAsked [['-', 'n'], ['4', '2']] outs ↔ [['-', 'n'], ['4', '2']].length ≤ 1 ∨
        (∃ w ∈ [['-', 'n'], ['4', '2']], isNumeric w = true ∧ digitsValue w = 0) ∨
        ([['-', 'n'], ['4', '2']].length ≤ 3 ∧
          ∃ w, [['-', 'n'], ['4', '2']][1]? = some w ∧ isNumeric w = true)) := by
  refine cmd_roots_iff ['p'] ?_ (by decide)
  intro w hw
  simp only [List.mem_cons, List.not_mem_nil, or_false] at hw
  rcases hw with rfl | rfl
  · exact .inl (by simp [optionWords])
  · exact .inr ⟨by simp, by simp, by decide⟩

end OSLabs.Pstree
