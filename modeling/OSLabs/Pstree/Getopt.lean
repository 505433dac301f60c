import Mathlib.Data.List.Basic

/-! # getopt_long

The GNU function with the options of `pstree.c`. It goes over `argv` word by word. Words
that are no options are skipped, and once options were found behind them, the next call
first moves these options before them, so that in the end all other words come last. What
it prints about unknown options is left out.
-/

namespace OSLabs.Pstree

abbrev Word := List Char

/-! ## The tables -/

inductive HasArg where
  | noArgument
  | optionalArgument
  deriving DecidableEq, Repr

structure LongOption where
  name : Word
  hasArg : HasArg
  val : Char
  deriving DecidableEq, Repr

def longOptions : List LongOption :=
  [⟨['v', 'e', 'r', 's', 'i', 'o', 'n'], .noArgument, 'V'⟩,
    ⟨['s', 'h', 'o', 'w', '-', 'p', 'i', 'd', 's'], .optionalArgument, 'p'⟩,
    ⟨['n', 'u', 'm', 'e', 'r', 'i', 'c', '-', 's', 'o', 'r', 't'], .optionalArgument, 'n'⟩]

/-- The string `"npV"`. -/
def optstring : List Char := ['n', 'p', 'V']

/-! ## The state between two calls -/

/-- `nextchar` is what is left of a word with several short options; the words from
`firstNonopt` on and before `lastNonopt` were skipped. -/
structure GetoptState where
  argv : List Word
  optind : Nat
  nextchar : List Char
  firstNonopt : Nat
  lastNonopt : Nat
  deriving DecidableEq, Repr

def getoptInit (argv : List Word) : GetoptState :=
  { argv, optind := 1, nextchar := [], firstNonopt := 1, lastNonopt := 1 }

namespace GetoptState

/-- Move the options that were found behind the skipped words before them. -/
def exchange (s : GetoptState) : GetoptState :=
  let skipped := (s.argv.take s.lastNonopt).drop s.firstNonopt
  let options := (s.argv.take s.optind).drop s.lastNonopt
  { s with
    argv := s.argv.take s.firstNonopt ++ options ++ skipped ++ s.argv.drop s.optind
    firstNonopt := s.firstNonopt + (s.optind - s.lastNonopt)
    lastNonopt := s.optind }

end GetoptState

/-- The word does not start with `'-'` or is only that. -/
def isNonoption (w : Word) : Bool := w.head? ≠ some '-' || w = ['-']

namespace GetoptState

/-- The options found since the last words were skipped are put in order. -/
def permute (s : GetoptState) : GetoptState :=
  let s := { s with
    firstNonopt := min s.firstNonopt s.optind
    lastNonopt := min s.lastNonopt s.optind }
  if s.firstNonopt ≠ s.lastNonopt ∧ s.lastNonopt ≠ s.optind then s.exchange
  else if s.lastNonopt ≠ s.optind then { s with firstNonopt := s.optind }
  else s

/-- What is done before the next word is looked at. -/
def advance (s : GetoptState) : GetoptState :=
  let s := s.permute
  let optind := s.optind + ((s.argv.drop s.optind).takeWhile isNonoption).length
  { s with optind, lastNonopt := optind }

def skipRest (s : GetoptState) : GetoptState :=
  let s := { s with optind := s.optind + 1 }
  let s :=
    if s.firstNonopt ≠ s.lastNonopt ∧ s.lastNonopt ≠ s.optind then s.exchange
    else if s.firstNonopt = s.lastNonopt then { s with firstNonopt := s.optind }
    else s
  { s with lastNonopt := s.argv.length, optind := s.argv.length }

/-- There are no more options; `optind` is set to the first word that is none. -/
def finish (s : GetoptState) : GetoptState :=
  if s.firstNonopt ≠ s.lastNonopt then { s with optind := s.firstNonopt } else s

end GetoptState

/-- The long option that is named exactly or by a beginning that fits no other one. -/
def findLong (name : Word) : Option LongOption :=
  match longOptions.find? fun o => o.name = name with
  | some o => some o
  | none =>
    match longOptions.filter fun o => name.isPrefixOf o.name with
    | [o] => some o
    | _ => none

/-- A word behind its `"--"`. -/
def processLongOption (word : Word) : Char :=
  match findLong (word.takeWhile (· ≠ '=')) with
  | none => '?'
  | some o => if '=' ∈ word ∧ o.hasArg = .noArgument then '?' else o.val

def shortOption (s : GetoptState) : Option Char × GetoptState :=
  match s.nextchar with
  | [] => (none, s)
  | c :: rest =>
    (some (if c ∈ optstring then c else '?'),
      { s with nextchar := rest, optind := if rest = [] then s.optind + 1 else s.optind })

/-- `getopt_long(argc, argv, "npV", long_options, NULL)`, with `none` for `-1`. -/
def getoptLong (s : GetoptState) : Option Char × GetoptState :=
  if s.nextchar = [] then
    let s := s.advance
    match s.argv[s.optind]? with
    | none => (none, s.finish)
    | some word =>
      if word = ['-', '-'] then (none, s.skipRest.finish)
      else if word[1]? = some '-' then
        (some (processLongOption (word.drop 2)), { s with optind := s.optind + 1 })
      else shortOption { s with nextchar := word.drop 1 }
  else shortOption s

/-! ## Permuting -/

/-- The words `others` were skipped and the options `found` come right behind them. -/
def between (before others found rest : List Word) : GetoptState :=
  { argv := before ++ others ++ found ++ rest
    optind := before.length + others.length + found.length
    nextchar := []
    firstNonopt := before.length
    lastNonopt := before.length + others.length }

variable {before others found skipped rest : List Word} {name : Word} {c : Char}

theorem getoptInit_eq (program : Word) (args : List Word) :
    getoptInit (program :: args) = between [program] [] [] args := rfl

theorem permute_between (before others found rest : List Word) :
    (between before others found rest).permute.argv = before ++ found ++ others ++ rest ∧
      (between before others found rest).permute.optind =
        before.length + found.length + others.length ∧
      (between before others found rest).permute.nextchar = [] ∧
      (between before others found rest).permute.firstNonopt = before.length + found.length := by
  have hclamp : min before.length (before.length + others.length + found.length) = before.length ∧
      min (before.length + others.length) (before.length + others.length + found.length) =
        before.length + others.length := by omega
  simp only [GetoptState.permute, between, hclamp.1, hclamp.2]
  by_cases hothers : others = []
  · subst hothers
    by_cases hfound : found = []
    · subst hfound
      simp
    · have hlength := List.length_pos_iff.2 hfound
      have hne : before.length ≠ before.length + found.length := by omega
      simp [hfound]
  · have hlength := List.length_pos_iff.2 hothers
    by_cases hfound : found = []
    · subst hfound
      simp [hothers]
    · have hlength' := List.length_pos_iff.2 hfound
      have hskipped : ((before ++ others ++ found ++ rest).take
          (before.length + others.length)).drop before.length = others := by
        rw [List.append_assoc (before ++ others), ← List.length_append, List.take_left,
          List.drop_left]
      have hoptions : ((before ++ others ++ found ++ rest).take
          (before.length + others.length + found.length)).drop
            (before.length + others.length) = found := by
        rw [← List.length_append, ← List.length_append, List.take_left, List.drop_left]
      have hbefore : (before ++ others ++ found ++ rest).take before.length = before := by
        simp
      have hrest : (before ++ others ++ found ++ rest).drop
          (before.length + others.length + found.length) = rest := by
        rw [← List.length_append, ← List.length_append, List.drop_left]
      rw [if_pos ⟨by omega, by omega⟩]
      simp only [GetoptState.exchange, hskipped, hoptions, hbefore, hrest]
      exact ⟨trivial, by omega, trivial, by omega⟩

/-- The next call starts with the options in order before all other words. -/
theorem advance_between (hskip : ∀ w ∈ skipped, isNonoption w = true)
    (hstop : ∀ w, rest.head? = some w → isNonoption w = false) :
    (between before others found (skipped ++ rest)).advance =
      between (before ++ found) (others ++ skipped) [] rest := by
  rcases permute_between before others found (skipped ++ rest) with
    ⟨hargv, hoptind, hnextchar, hfirst⟩
  have htake : (skipped ++ rest).takeWhile isNonoption = skipped := by
    rw [List.takeWhile_append_of_pos hskip]
    cases rest with
    | nil => simp
    | cons w rest => simp [hstop w rfl]
  have hdrop : (before ++ found ++ others ++ (skipped ++ rest)).drop
      (before.length + found.length + others.length) = skipped ++ rest := by
    rw [← List.length_append, ← List.length_append, List.drop_left]
  rw [GetoptState.advance]
  simp only [hargv, hoptind, hnextchar, hfirst, hdrop, htake]
  simp only [between, GetoptState.mk.injEq, List.length_append, List.length_nil,
    List.append_nil, List.append_assoc, true_and]
  omega

theorem getElem?_optind (before others : List Word) (word : Word) (rest : List Word) :
    (between before others [] (word :: rest)).argv[
      (between before others [] (word :: rest)).optind]? = some word := by
  have hget : ∀ (u : List Word) (n : Nat), n = u.length → (u ++ word :: rest)[n]? = some word := by
    rintro u n rfl
    simp
  exact hget _ _ (by simp [between])

theorem getoptLong_short (hskip : ∀ w ∈ skipped, isNonoption w = true) (hc : c ∈ optstring) :
    getoptLong (between before others found (skipped ++ ['-', c] :: rest)) =
      (some c, between (before ++ found) (others ++ skipped) [['-', c]] rest) := by
  have hdash : c ≠ '-' := by
    rintro rfl
    exact absurd hc (by decide)
  have hadvance := @advance_between before others found skipped (['-', c] :: rest) hskip
    (fun w hw => by cases hw; simp [isNonoption])
  rw [getoptLong, if_pos (show (between before others found _).nextchar = [] from rfl)]
  simp only [hadvance, getElem?_optind]
  simp [shortOption, hdash, hc, between]

theorem getoptLong_long (hskip : ∀ w ∈ skipped, isNonoption w = true) (hname : name ≠ [])
    (hc : processLongOption name = c) :
    getoptLong (between before others found (skipped ++ ('-' :: '-' :: name) :: rest)) =
      (some c, between (before ++ found) (others ++ skipped) ['-' :: '-' :: name] rest) := by
  have hadvance := @advance_between before others found skipped (('-' :: '-' :: name) :: rest)
    hskip (fun w hw => by cases hw; simp [isNonoption])
  rw [getoptLong, if_pos (show (between before others found _).nextchar = [] from rfl)]
  simp only [hadvance, getElem?_optind]
  simp [hname, hc, between]

theorem getoptLong_end (hskip : ∀ w ∈ skipped, isNonoption w = true) :
    (getoptLong (between before others found skipped)).1 = none ∧
      (getoptLong (between before others found skipped)).2.argv =
        before ++ found ++ (others ++ skipped) := by
  have hfinish : ∀ s : GetoptState, s.finish.argv = s.argv := by
    intro s
    unfold GetoptState.finish
    split
    · rfl
    · rfl
  have hadvance := @advance_between before others found skipped [] hskip (by simp)
  rw [List.append_nil] at hadvance
  have hget : (between (before ++ found) (others ++ skipped) [] []).argv[
      (between (before ++ found) (others ++ skipped) [] []).optind]? = none :=
    List.getElem?_eq_none (by simp [between, Nat.add_assoc])
  rw [getoptLong, if_pos (show (between before others found _).nextchar = [] from rfl)]
  simp only [hadvance, hget, hfinish]
  exact ⟨trivial, by simp [between]⟩

end OSLabs.Pstree
