/-
# MultiPaxosDB.CommandLine — `commands_parser.cc` and the loop of `driver.cc` over the lines of the user.

`parseCommand` tests the line against five patterns, splits it at blanks and converts the second word of `printBalance`
with `std::stoi`.  The patterns admit any number of digits and `std::stoi` does not: it throws `std::out_of_range`, which
is no `std::invalid_argument`, and the loop catches only the latter around `parseCommand`.

The loop is a function of the lines that are typed; the input ends after the last.  What the commands do to the reader and
the client is an arbitrary function, since every `std::exception` of a command is caught and the loop goes on; so are
`kill` and `waitpid`.  `server_pids` is concrete, so that a loop that is left with servers running can be told from one
that is not.
-/
import MultiPaxosDB.CsvReader
import MultiPaxosDB.Lib.Patterns

namespace MultiPaxosDB

open Lib RegularExpression

/-! ## The parser -/

/-- `types::Command`. -/
inductive Command
  | processNextSet
  | printBalance
  | printDatastore
  | printPerformance
  | exit
deriving DecidableEq, Repr

/-- `types::AppCommand`. -/
structure AppCommand where
  command : Command
  clientId : Int
deriving DecidableEq, Repr

/-- The word a command is called by. -/
def Command.word : Command → List Char
  | .processNextSet => "processNextSet".toList
  | .printBalance => "printBalance".toList
  | .printDatastore => "printDatastore".toList
  | .printPerformance => "printPerformance".toList
  | .exit => "exit".toList

/-- What `parseCommand` throws: its own `std::invalid_argument` with a text, or what the library throws. -/
inductive CommandError
  | invalidCommand (what : List Char)
  | library (e : CsvError)
deriving DecidableEq, Repr

/-- Whether `catch (const std::invalid_argument&)` takes it. -/
def CommandError.isInvalidArgument : CommandError → Bool
  | .invalidCommand _ => true
  | .library .invalidArgument => true
  | .library .outOfRange => false

def processNextSetPattern : RegularExpression Char := Lib.word "processNextSet".toList

/-- `printBalance [1-9][0-9]*`. -/
def printBalancePattern : RegularExpression Char :=
  Lib.word "printBalance ".toList * (oneOf (charRange '1' '9') * star (oneOf (charRange '0' '9')))

def printDatastorePattern : RegularExpression Char := Lib.word "printDatastore".toList

def printPerformancePattern : RegularExpression Char := Lib.word "printPerformance".toList

def exitPattern : RegularExpression Char := Lib.word "exit".toList

/-- `CommandsParser::isValidCommand`. -/
def isValidCommand (command : List Char) : Bool :=
  processNextSetPattern.rmatch command || printBalancePattern.rmatch command || printDatastorePattern.rmatch command ||
    printPerformancePattern.rmatch command || exitPattern.rmatch command

/-- `CommandsParser::tokenizeCommand`. -/
def tokenizeCommand (command : List Char) : List (List Char) := readWords command

/-- The chain of comparisons of `parseCommand`, on the words of a valid command. -/
def commandOfTokens (tokens : List (List Char)) : Except CsvError AppCommand := do
  let first ← vectorAt tokens 0
  if first = "processNextSet".toList then return ⟨.processNextSet, -1⟩
  else if first = "printBalance".toList then
    let clientId ← stoi (← vectorAt tokens 1)
    return ⟨.printBalance, clientId⟩
  else if first = "printDatastore".toList then return ⟨.printDatastore, -1⟩
  else if first = "printPerformance".toList then return ⟨.printPerformance, -1⟩
  else return ⟨.exit, -1⟩

/-- `CommandsParser::parseCommand`. -/
def parseCommand (command : List Char) : Except CommandError AppCommand :=
  if isValidCommand command then (commandOfTokens (tokenizeCommand command)).mapError .library
  else .error (.invalidCommand ("Invalid command: ".toList ++ command))

/-! ## The grammar -/

/-- `printBalance n`. -/
def balanceLine (n : ℕ) : List Char := "printBalance ".toList ++ Nat.toDigits 10 n

/-- The command a line stands for: one of the four words, or a balance of a positive number. -/
inductive Denotes : List Char → AppCommand → Prop
  | plain (k : Command) : k ≠ .printBalance → Denotes k.word ⟨k, -1⟩
  | balance (n : ℕ) : 0 < n → Denotes (balanceLine n) ⟨.printBalance, n⟩

theorem isDigit_iff {ch : Char} : ch ∈ charRange '0' '9' ↔ ch.isDigit = true := by
  rw [mem_charRange (by decide), Char.isDigit, Bool.and_eq_true, decide_eq_true_eq, decide_eq_true_eq]
  exact Iff.rfl

theorem isDigit_ne_zero_iff {ch : Char} : ch ∈ charRange '1' '9' ↔ ch.isDigit = true ∧ ch ≠ '0' := by
  have hzero : ch ≠ '0' ↔ ch.toNat ≠ 48 := not_congr (Char.toNat_inj (d := '0')).symm
  rw [← isDigit_iff, mem_charRange (by decide), mem_charRange (by decide), hzero]
  show 49 ≤ ch.toNat ∧ ch.toNat ≤ 57 ↔ (48 ≤ ch.toNat ∧ ch.toNat ≤ 57) ∧ ch.toNat ≠ 48
  omega

/-- The pattern of a balance is the lines with a positive number, without leading zeros. -/
theorem printBalancePattern_iff (line : List Char) :
    printBalancePattern.rmatch line ↔ ∃ n, 0 < n ∧ line = balanceLine n := by
  have hnumber : ∀ ds, (oneOf (charRange '1' '9') * star (oneOf (charRange '0' '9'))).rmatch ds ↔
      ∃ n, 0 < n ∧ ds = Nat.toDigits 10 n := by
    intro ds
    simp only [exists_toDigits_iff, mul_rmatch_iff, oneOf_rmatch_iff, star_oneOf_rmatch_iff, isDigit_iff,
      isDigit_ne_zero_iff]
    constructor
    · rintro ⟨_, rest, rfl, ⟨ch, hch, rfl⟩, hrest⟩
      exact ⟨ch, rest, rfl, hch, hrest⟩
    · rintro ⟨ch, rest, rfl, hch, hrest⟩
      exact ⟨[ch], rest, rfl, ⟨ch, hch, rfl⟩, hrest⟩
  simp only [printBalancePattern, mul_rmatch_iff, word_rmatch_iff, hnumber]
  constructor
  · rintro ⟨_, _, rfl, rfl, n, hn, rfl⟩
    exact ⟨n, hn, rfl⟩
  · rintro ⟨n, hn, rfl⟩
    exact ⟨_, _, rfl, rfl, n, hn, rfl⟩

/-- **The five patterns are the grammar.** -/
theorem isValidCommand_iff (line : List Char) : isValidCommand line = true ↔ ∃ c, Denotes line c := by
  simp only [isValidCommand, Bool.or_eq_true, processNextSetPattern, printDatastorePattern, printPerformancePattern,
    exitPattern, word_rmatch_iff, printBalancePattern_iff]
  constructor
  · rintro ((((rfl | ⟨n, hn, rfl⟩) | rfl) | rfl) | rfl)
    · exact ⟨_, .plain .processNextSet (by decide)⟩
    · exact ⟨_, .balance n hn⟩
    · exact ⟨_, .plain .printDatastore (by decide)⟩
    · exact ⟨_, .plain .printPerformance (by decide)⟩
    · exact ⟨_, .plain .exit (by decide)⟩
  · rintro ⟨c, hc⟩
    cases hc with
    | plain k hk =>
      cases k with
      | processNextSet => exact .inl (.inl (.inl (.inl rfl)))
      | printBalance => exact absurd rfl hk
      | printDatastore => exact .inl (.inl (.inr rfl))
      | printPerformance => exact .inl (.inr rfl)
      | exit => exact .inr rfl
    | balance n hn => exact .inl (.inl (.inl (.inr ⟨n, hn, rfl⟩)))

/-! ## What the parser returns -/

theorem Command.word_blankless (k : Command) : k.word ≠ [] ∧ ∀ ch ∈ k.word, isSpace ch = false := by
  have hall : k.word ≠ [] ∧ k.word.all (fun ch => !isSpace ch) = true := by
    cases k <;> decide +kernel
  refine ⟨hall.1, fun ch hch => ?_⟩
  have hblank := List.all_eq_true.mp hall.2 ch hch
  rwa [Bool.not_eq_true'] at hblank

theorem tokenizeCommand_word (k : Command) : tokenizeCommand k.word = [k.word] := by
  have hread := readWord_word (s := []) k.word_blankless.1 k.word_blankless.2 fun _ h => absurd h (by simp)
  rw [List.append_nil] at hread
  rw [tokenizeCommand, readWords_of_readWord hread]
  rfl

theorem tokenizeCommand_balanceLine (n : ℕ) :
    tokenizeCommand (balanceLine n) = [Command.word .printBalance, Nat.toDigits 10 n] := by
  have hline : balanceLine n = Command.word .printBalance ++ ' ' :: Nat.toDigits 10 n :=
    List.append_assoc (Command.word .printBalance) [' '] (Nat.toDigits 10 n)
  have hword := Command.word_blankless .printBalance
  have hfirst := readWord_word (s := ' ' :: Nat.toDigits 10 n) hword.1 hword.2 fun ch hch => by cases hch; decide
  have hsecond : readWord (' ' :: Nat.toDigits 10 n) = some (Nat.toDigits 10 n, []) := by
    have hread := readWord_word (s := []) (Nat.toDigits_ne_nil (n := n) (b := 10))
      (fun _ hch => isSpace_of_isDigit (isDigit_of_mem_digits hch)) fun _ h => absurd h (by simp)
    rw [readWord_blank, ← hread, List.append_nil]
  rw [tokenizeCommand, hline, readWords_of_readWord hfirst, readWords_of_readWord hsecond]
  rfl

theorem parseCommand_word {k : Command} (hk : k ≠ .printBalance) : parseCommand k.word = .ok ⟨k, -1⟩ := by
  rw [parseCommand, if_pos ((isValidCommand_iff _).mpr ⟨_, .plain k hk⟩), tokenizeCommand_word]
  cases k with
  | printBalance => exact absurd rfl hk
  | _ => rfl

/-- A balance is parsed if its number is an `int`. -/
theorem parseCommand_balanceLine {n : ℕ} (hn : 0 < n) : parseCommand (balanceLine n) =
    if n < 2 ^ 31 then .ok ⟨.printBalance, n⟩ else .error (.library .outOfRange) := by
  have htokens : commandOfTokens [Command.word .printBalance, Nat.toDigits 10 n] =
      (stoi (showInt n)).map fun clientId => ⟨.printBalance, clientId⟩ := by
    rw [showInt_natCast]
    rfl
  have hrange : InRange 32 (n : Int) ↔ n < 2 ^ 31 := by
    unfold InRange
    omega
  rw [parseCommand, if_pos ((isValidCommand_iff _).mpr ⟨_, .balance n hn⟩), tokenizeCommand_balanceLine, htokens,
    stoi_showInt]
  by_cases hint : n < 2 ^ 31
  · rw [if_pos hint, if_pos (hrange.mpr hint)]
    rfl
  · rw [if_neg hint, if_neg (mt hrange.mp hint)]
    rfl

/-- The parser returns what the line stands for, or throws `std::invalid_argument` if it stands for nothing. -/
def ParsedRight (line : List Char) : Prop :=
  (∃ c, Denotes line c ∧ parseCommand line = .ok c) ∨
    (¬ ∃ c, Denotes line c) ∧ ∃ e, parseCommand line = .error e ∧ e.isInvalidArgument = true

/-- The balance of a number that is no `int`. -/
def TooLarge (line : List Char) : Prop := ∃ n, 2 ^ 31 ≤ n ∧ line = balanceLine n

theorem parseCommand_tooLarge {line : List Char} (h : TooLarge line) :
    parseCommand line = .error (.library .outOfRange) := by
  obtain ⟨n, hn, rfl⟩ := h
  rw [parseCommand_balanceLine (by omega), if_neg (by omega)]

/-- All lines but those are parsed right. -/
theorem parsedRight_iff (line : List Char) : ParsedRight line ↔ ¬ TooLarge line := by
  constructor
  · rintro hright hlarge
    have hparse := parseCommand_tooLarge hlarge
    rcases hright with ⟨c, -, hok⟩ | ⟨-, e, he, hinvalid⟩
    · rw [hparse] at hok
      cases hok
    · rw [hparse] at he
      cases he
      cases hinvalid
  · intro hsmall
    by_cases hline : ∃ c, Denotes line c
    · obtain ⟨c, hc⟩ := hline
      refine .inl ⟨c, hc, ?_⟩
      cases hc with
      | plain k hk => exact parseCommand_word hk
      | balance n hn =>
        have hint : n < 2 ^ 31 := by
          by_contra hge
          exact hsmall ⟨n, by omega, rfl⟩
        rw [parseCommand_balanceLine hn, if_pos hint]
    · refine .inr ⟨hline, .invalidCommand ("Invalid command: ".toList ++ line), ?_, rfl⟩
      rw [parseCommand, if_neg (mt (isValidCommand_iff line).mp hline)]

/-! ## The loop -/

/-- What `killAllServers` throws. -/
inductive KillError
  | kill (what : List Char)
  | waitpid (what : List Char)
deriving DecidableEq, Repr

/-- `utils::server_pids` and all else that the driver works on. -/
structure DriverState (σ : Type) where
  serverPids : List (List Char × Int)
  rest : σ

/-- What is outside the loop: the commands, without `exit`, and two calls of the operating system, `true` if they do not
return −1. -/
structure Driver (σ : Type) where
  perform : AppCommand → σ → σ
  kill : Int → σ → σ × Bool
  waitpid : Int → σ → σ × Bool

namespace Driver

variable {σ : Type}

/-- `utils::killAllServers` — the servers that it has not come to stay in the map when it throws. -/
def killAllServers (d : Driver σ) : List (List Char × Int) → σ → DriverState σ × Option KillError
  | [], s => (⟨[], s⟩, none)
  | (name, pid) :: pids, s =>
    let killed := d.kill pid s
    if killed.2 then
      let waited := d.waitpid pid killed.1
      if waited.2 then killAllServers d pids waited.1
      else (⟨(name, pid) :: pids, waited.1⟩, some (.waitpid ("waitpid failed for server: ".toList ++ name)))
    else (⟨(name, pid) :: pids, killed.1⟩, some (.kill ("Failed to kill server: ".toList ++ name)))

/-- How the loop is left: by its condition or a `break`, or by an exception. -/
inductive Ending
  | returned
  | command (e : CommandError)
  | server (e : KillError)
deriving DecidableEq, Repr

/-- One turn of `mainloop`, after a line was read; `none` if there is a next one. -/
def turn (d : Driver σ) (line : List Char) (s : DriverState σ) : DriverState σ × Option Ending :=
  match parseCommand line with
  | .error e => if e.isInvalidArgument then (s, none) else (s, some (.command e))
  | .ok c =>
    match c.command with
    | .exit =>
      match d.killAllServers s.serverPids s.rest with
      | (s', none) => (s', some .returned)
      | (s', some _) => (s', none)
    | _ => ({ s with rest := d.perform c s.rest }, none)

/-- `mainloop` on the lines that are typed.  After the last, `std::cin` fails and the servers are stopped outside of
`try`. -/
def mainloop (d : Driver σ) : List (List Char) → DriverState σ → DriverState σ × Ending
  | [], s =>
    match d.killAllServers s.serverPids s.rest with
    | (s', none) => (s', .returned)
    | (s', some e) => (s', .server e)
  | line :: lines, s =>
    match d.turn line s with
    | (s', none) => mainloop d lines s'
    | (s', some ending) => (s', ending)

/-- The loop was left with the servers stopped, or because the operating system did not stop one. -/
def Stopped (result : DriverState σ × Ending) : Prop :=
  (result.2 = .returned ∧ result.1.serverPids = []) ∨ ∃ e, result.2 = .server e

/-- `killAllServers` empties the map if it does not throw. -/
theorem serverPids_killAllServers (d : Driver σ) {pids : List (List Char × Int)} {s : σ} {s' : DriverState σ}
    (h : d.killAllServers pids s = (s', none)) : s'.serverPids = [] := by
  induction pids generalizing s with
  | nil =>
    cases h
    rfl
  | cons p pids ih =>
    simp only [killAllServers] at h
    split at h
    · split at h
      · exact ih h
      · cases h
    · cases h

/-- What one turn does with a line that is not too large: if it ends the loop, the servers are stopped. -/
theorem turn_stopped (d : Driver σ) {line : List Char} (hline : ¬ TooLarge line) {s s' : DriverState σ} {ending : Ending}
    (h : d.turn line s = (s', some ending)) : ending = .returned ∧ s'.serverPids = [] := by
  unfold turn at h
  rcases (parsedRight_iff line).mpr hline with ⟨c, -, hparse⟩ | ⟨-, e, hparse, hinvalid⟩
  · simp only [hparse] at h
    split at h
    · split at h
      · rename_i hkill
        cases h
        exact ⟨rfl, d.serverPids_killAllServers hkill⟩
      · cases h
    · cases h
  · simp only [hparse, hinvalid, if_true] at h
    cases h

/-- A line that is too large ends the loop with all servers as they are. -/
theorem turn_tooLarge (d : Driver σ) {line : List Char} (hline : TooLarge line) (s : DriverState σ) :
    d.turn line s = (s, some (.command (.library .outOfRange))) := by
  rw [turn, parseCommand_tooLarge hline]
  rfl

/-- **Without such a line the loop stops the servers**, by induction on the lines. -/
theorem mainloop_stopped (d : Driver σ) {lines : List (List Char)} (hlines : ∀ line ∈ lines, ¬ TooLarge line)
    (s : DriverState σ) : Stopped (d.mainloop lines s) := by
  induction lines generalizing s with
  | nil =>
    rw [mainloop]
    split
    · rename_i hkill
      exact .inl ⟨rfl, d.serverPids_killAllServers hkill⟩
    · exact .inr ⟨_, rfl⟩
  | cons line lines ih =>
    obtain ⟨hline, hrest⟩ := List.forall_mem_cons.mp hlines
    rw [mainloop]
    split
    · exact ih hrest _
    · rename_i hturn
      exact .inl (d.turn_stopped hline hturn)

/-- A driver whose servers cannot be killed, so that `exit` does not end the loop. -/
def unkillable : Driver Unit := ⟨fun _ s => s, fun _ s => (s, false), fun _ s => (s, false)⟩

theorem turn_unkillable {line : List Char} (hline : ¬ TooLarge line) (p : List Char × Int) (pids : List (List Char × Int)) :
    unkillable.turn line ⟨p :: pids, ()⟩ = (⟨p :: pids, ()⟩, none) := by
  unfold turn
  rcases (parsedRight_iff line).mpr hline with ⟨c, -, hparse⟩ | ⟨-, e, hparse, hinvalid⟩
  · simp only [hparse]
    cases c.command <;> rfl
  · simp only [hparse, hinvalid, if_true]

/-- With such a line somewhere the loop can be left by the exception. -/
theorem mainloop_unkillable {lines : List (List Char)} (hlines : ∃ line ∈ lines, TooLarge line) (p : List Char × Int)
    (pids : List (List Char × Int)) : unkillable.mainloop lines ⟨p :: pids, ()⟩ =
      (⟨p :: pids, ()⟩, .command (.library .outOfRange)) := by
  induction lines with
  | nil =>
    obtain ⟨line, hmem, -⟩ := hlines
    cases hmem
  | cons line lines ih =>
    rw [mainloop]
    by_cases hline : TooLarge line
    · rw [turn_tooLarge _ hline]
    · rw [turn_unkillable hline]
      refine ih ?_
      obtain ⟨l, hmem, hl⟩ := hlines
      rcases List.mem_cons.mp hmem with rfl | hmem
      · exact absurd hl hline
      · exact ⟨l, hmem, hl⟩

/-- **The command line is safe up to the size of an `int`**: a line is parsed right, and a loop on some lines stops the
servers whatever the commands and the operating system do, exactly if no line asks for the balance of a larger number. -/
theorem command_line_safe_iff (line : List Char) (lines : List (List Char)) : (ParsedRight line ↔ ¬ TooLarge line) ∧
    ((∀ (σ : Type) (d : Driver σ) (s : DriverState σ), Stopped (d.mainloop lines s)) ↔
      ∀ line ∈ lines, ¬ TooLarge line) := by
  refine ⟨parsedRight_iff line, fun hstops line hmem hline => ?_, fun hlines σ d s => ?_⟩
  · have hresult := mainloop_unkillable ⟨line, hmem, hline⟩ ("S1".toList, 1) []
    have hstopped := hstops Unit unkillable ⟨[("S1".toList, 1)], ()⟩
    rw [hresult] at hstopped
    rcases hstopped with ⟨hreturned, -⟩ | ⟨e, he⟩
    · cases hreturned
    · cases he
  · exact d.mainloop_stopped hlines s

/-- `printBalance 2147483648`: not parsed right, and every driver leaves its loop there with the servers running. -/
theorem balance_leaves_servers : ¬ ParsedRight "printBalance 2147483648".toList ∧
    ∀ (σ : Type) (d : Driver σ) (s : DriverState σ), d.mainloop ["printBalance 2147483648".toList] s =
      (s, .command (.library .outOfRange)) := by
  have hlarge : TooLarge "printBalance 2147483648".toList := ⟨2147483648, le_rfl, by decide⟩
  refine ⟨fun hright => (parsedRight_iff _).mp hright hlarge, fun σ d s => ?_⟩
  rw [mainloop, d.turn_tooLarge hlarge]

end Driver

end MultiPaxosDB
