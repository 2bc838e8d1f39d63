/-
# MultiPaxosDB.Storage — what is on disk, as the bytes and texts it is made of.

`Disk` has the lines of the WAL and the numbers that LevelDB holds.  In fact the WAL is a file of characters, and LevelDB
maps texts to texts: an account is saved under its decimal number, the ballot number under a name, and `run` reads both
back with `std::stoi`.  `Storage` is that level, with the same durable writes, and `run` on it is the loop of the source
over the accounts.

The two levels agree (`Represents`) as long as the numbers written fit their types: every write keeps it, and a start on
the one finds what a start on the other finds.  A start writes, too: it initialises the accounts that are not saved and
saves the ballot number.  It may be stopped between any two of these writes; the next one finds the same
(`boot_interrupted`).
-/
import MultiPaxosDB.CsvReader
import MultiPaxosDB.WalText
import MultiPaxosDB.WriteAhead

namespace MultiPaxosDB

open Lib
open Std (ExtTreeMap)

/-! ## Texts -/

/-- The WAL file and the LevelDB database of a server. -/
structure Storage where
  bytes : List Char
  db : ExtTreeMap (List Char) (List Char) compare

/-- The key of the ballot number. -/
def ballotKey : List Char := "__ballot_num__".toList

namespace Storage

def empty : Storage := { bytes := [], db := ∅ }

/-- A durable write: a line of the WAL, or `db->Put` in `updateBalance`, `run` and `persistBallotNum`. -/
def write (s : Storage) : Write → Storage
  | .append line => { s with bytes := s.bytes ++ encode [line] }
  | .putBalance account balance => { s with db := s.db.insert (showInt account) (showInt balance.toInt) }
  | .putBallotNum num => { s with db := s.db.insert ballotKey (showInt num) }

def effect (s : Storage) : Effect → Storage
  | .write w => s.write w
  | .answer _ _ => s

/-- What `run` has read when it comes to `HandleRPCs`. -/
structure Loaded where
  balances : Int → Int32
  recovery : Recovery

/-- One turn of the loop of `run` over the accounts, with the writes made so far; `none` where `std::stoi` throws. -/
def loadBalance (c : Constants) (clusterId : Int) (s : Storage) (loaded : (Int → Int32) × List Write) (i : ℕ) :
    Option ((Int → Int32) × List Write) :=
  let account : Int := i + 1
  if isClientInCluster c account clusterId then
    match (loaded.2.foldl write s).db[showInt account]? with
    | some text => (stoi text).toOption.map fun z => (Function.update loaded.1 account (.ofInt z), loaded.2)
    | none => some (Function.update loaded.1 account 10, loaded.2 ++ [.putBalance account 10])
  else some loaded

/-- The ballot number that `run` finds; `none` where `std::stoi` throws. -/
def loadBallotNum (s : Storage) : Option Int :=
  match s.db[ballotKey]? with
  | some text => (stoi text).toOption
  | none => some 0

/-- `ServerImpl::run` on what is on disk: what it has read, and what it has written. -/
def run (c : Constants) (serverId : Int) (s : Storage) : Option (Loaded × List Write) := do
  let ballotNum ← s.loadBallotNum
  let loaded ← (List.range totalClients.toNat).foldlM (loadBalance c (getClusterIdFromServerId c serverId) s) (fun _ => 0, [])
  let recovery := Recovery.scanText ballotNum s.bytes
  return ({ balances := loaded.1, recovery := recovery }, loaded.2 ++ [.putBallotNum recovery.ballotNum])

/-- A start that goes through. -/
def boot (c : Constants) (serverId : Int) (s : Storage) : Option (Loaded × Storage) :=
  (s.run c serverId).map fun started => (started.1, started.2.foldl write s)

/-- A start that is stopped after `k` of its writes. -/
def bootStopped (c : Constants) (serverId : Int) (s : Storage) (k : ℕ) : Option Storage :=
  (s.run c serverId).map fun started => (started.2.take k).foldl write s

end Storage

/-! ## The writes of a start, on the disk of numbers -/

/-- The accounts among the first `count` that a start finds missing. -/
def initWrites (c : Constants) (clusterId : Int) (d : Disk) (count : ℕ) : List Write :=
  ((List.range count).filter fun (i : ℕ) =>
    isClientInCluster c (i + 1) clusterId && (d.balances (i + 1)).isNone).map fun (i : ℕ) => .putBalance (i + 1) 10

/-- All writes of a start. -/
def bootWrites (c : Constants) (serverId : Int) (d : Disk) : List Write :=
  initWrites c (getClusterIdFromServerId c serverId) d totalClients.toNat ++
    [.putBallotNum (Recovery.scan (d.ballotNum.getD 0) d.file).ballotNum]

theorem initWrites_succ (c : Constants) (clusterId : Int) (d : Disk) (count : ℕ) :
    initWrites c clusterId d (count + 1) = initWrites c clusterId d count ++
      if isClientInCluster c (count + 1) clusterId && (d.balances (count + 1)).isNone then [.putBalance (count + 1) 10]
      else [] := by
  rw [initWrites, List.range_succ, List.filter_append, List.map_append, List.filter_singleton]
  congr 1
  by_cases hmissing : (isClientInCluster c (count + 1) clusterId && (d.balances (count + 1)).isNone) = true
  · rw [if_pos hmissing, hmissing]
    rfl
  · rw [if_neg hmissing, Bool.eq_false_iff.mpr hmissing]
    rfl

/-- Some of the accounts of the shard that were not saved are saved as 10, and nothing else is changed. -/
structure Disk.Initialised (c : Constants) (clusterId : Int) (d d' : Disk) : Prop where
  file : d'.file = d.file
  balances : ∀ a, d'.balances a = d.balances a ∨
    (isShardClient c clusterId a ∧ d.balances a = none ∧ d'.balances a = some 10)
  ballotNum : d'.ballotNum = d.ballotNum ∨ d'.ballotNum = some (Recovery.scan (d.ballotNum.getD 0) d.file).ballotNum

namespace Recovery

theorem readLine_ballotNum (r : Recovery) (b : Int) (l : WalLine) (position : Nat) :
    readLine { r with ballotNum := b } l position = { r.readLine l position with ballotNum := max b l.ballotNum } := by
  unfold readLine
  dsimp only
  split <;> rfl

/-- The ballot number from which a scan starts is seen in the one it finds, and nowhere else. -/
theorem scan_eq (b b' : Int) (file : List WalLine) :
    scan b' file = { scan b file with ballotNum := (scan b' file).ballotNum } := by
  induction file using List.reverseRecOn with
  | nil => rfl
  | append_singleton file l ih =>
    rw [scan_append, scan_append, ih, readLine_ballotNum]

theorem ballotNum_scan_of_le {b b' : Int} {file : List WalLine} (h : (scan b file).ballotNum ≤ b') :
    (scan b' file).ballotNum = b' := by
  induction file using List.reverseRecOn with
  | nil => rfl
  | append_singleton file l ih =>
    rw [scan_append, ballotNum_readLine] at h ⊢
    rw [ih ((le_max_left _ _).trans h)]
    exact max_eq_left ((le_max_right _ _).trans h)

/-- A scan from the ballot number that a scan has found finds the same. -/
theorem scan_scan (b : Int) (file : List WalLine) : scan (scan b file).ballotNum file = scan b file := by
  rw [scan_eq b, ballotNum_scan_of_le le_rfl]

end Recovery

namespace Disk

variable {c : Constants} {clusterId serverId : Int} {d d' : Disk}

theorem Initialised.refl (c : Constants) (clusterId : Int) (d : Disk) : Initialised c clusterId d d :=
  ⟨rfl, fun _ => .inl rfl, .inl rfl⟩

/-- One more write of a start. -/
theorem Initialised.write (h : Initialised c clusterId d d') {w : Write}
    (hw : w = .putBallotNum (Recovery.scan (d.ballotNum.getD 0) d.file).ballotNum ∨
      ∃ a, isShardClient c clusterId a ∧ d.balances a = none ∧ w = .putBalance a 10) :
    Initialised c clusterId d (d'.write w) := by
  rcases hw with rfl | ⟨a, ha, hnone, rfl⟩
  · exact ⟨h.file, h.balances, .inr rfl⟩
  · refine ⟨h.file, fun a' => ?_, h.ballotNum⟩
    show Function.update d'.balances a (some 10) a' = _ ∨ _ ∧ _ ∧ Function.update d'.balances a (some 10) a' = _
    by_cases haccount : a' = a
    · subst haccount
      exact .inr ⟨ha, hnone, Function.update_self ..⟩
    · rw [Function.update_of_ne haccount]
      exact h.balances a'

theorem mem_bootWrites {w : Write} (h : w ∈ bootWrites c serverId d) :
    w = .putBallotNum (Recovery.scan (d.ballotNum.getD 0) d.file).ballotNum ∨
      ∃ a, isShardClient c (getClusterIdFromServerId c serverId) a ∧ d.balances a = none ∧ w = .putBalance a 10 := by
  rcases List.mem_append.mp h with hinit | hlast
  · obtain ⟨i, hi, rfl⟩ := List.mem_map.mp hinit
    obtain ⟨hrange, hmissing⟩ := List.mem_filter.mp hi
    rw [Bool.and_eq_true, Option.isNone_iff_eq_none] at hmissing
    rw [List.mem_range] at hrange
    have hlt : i < 3000 := hrange
    refine .inr ⟨i + 1, ⟨by omega, ?_, hmissing.1⟩, hmissing.2, rfl⟩
    show (i : Int) + 1 ≤ 3000
    omega
  · exact .inl (List.mem_singleton.mp hlast)

/-- However far a start has come. -/
theorem initialised_take (c : Constants) (serverId : Int) (d : Disk) (k : ℕ) :
    Initialised c (getClusterIdFromServerId c serverId) d (((bootWrites c serverId d).take k).foldl Disk.write d) := by
  refine List.foldlRecOn (motive := Initialised c (getClusterIdFromServerId c serverId) d) _ Disk.write (.refl ..) ?_
  intro d' hd' w hw
  exact hd'.write (mem_bootWrites (List.mem_of_mem_take hw))

/-- **The next start finds the same.** -/
theorem Initialised.boot (h : Initialised c (getClusterIdFromServerId c serverId) d d') :
    ServerImpl.boot c serverId d' = ServerImpl.boot c serverId d := by
  have hscan : Recovery.scan (d'.ballotNum.getD 0) d'.file = Recovery.scan (d.ballotNum.getD 0) d.file := by
    rw [h.file]
    rcases h.ballotNum with hold | hnew
    · rw [hold]
    · rw [hnew, Option.getD_some, Recovery.scan_scan]
  have hloaded : ∀ a, isShardClient c (getClusterIdFromServerId c serverId) a →
      (d'.balances a).getD 10 = (d.balances a).getD 10 := by
    intro a _
    rcases h.balances a with hold | ⟨-, hnone, hnew⟩
    · rw [hold]
    · rw [hnew, hnone]
      rfl
  have hledger : ∀ r, ServerImpl.bootLedger c (getClusterIdFromServerId c serverId) d' r =
      ServerImpl.bootLedger c (getClusterIdFromServerId c serverId) d r := by
    intro r
    unfold ServerImpl.bootLedger
    rw [h.file]
    congr 1
    · funext a
      split
      · rename_i ha
        exact hloaded a ha
      · rfl
    · funext a
      split
      · rename_i ha
        rw [hloaded a ha]
      · rename_i ha
        rcases h.balances a with hold | ⟨hclient, -⟩
        · exact hold
        · exact absurd hclient ha
  unfold ServerImpl.boot WAL.recover
  simp only [if_true, hscan, hledger]

theorem boot_interrupted (c : Constants) (serverId : Int) (d : Disk) (k : ℕ) :
    ServerImpl.boot c serverId (((bootWrites c serverId d).take k).foldl Disk.write d) = ServerImpl.boot c serverId d :=
  (initialised_take c serverId d k).boot

/-- What the first turns of the loop leave. -/
theorem balances_initWrites (c : Constants) (clusterId : Int) (d : Disk) (count : ℕ) (a : Int) :
    ((initWrites c clusterId d count).foldl Disk.write d).balances a =
      if (1 ≤ a ∧ a ≤ count) ∧ isClientInCluster c a clusterId = true then some ((d.balances a).getD 10)
      else d.balances a := by
  induction count with
  | zero => rw [if_neg fun h => by omega]; rfl
  | succ count ih =>
    rw [initWrites_succ, List.foldl_append]
    by_cases hnew : a = count + 1
    · subst hnew
      rw [if_neg fun h => by omega] at ih
      have hrange : (1 : Int) ≤ count + 1 ∧ (count : Int) + 1 ≤ ((count + 1 : ℕ) : Int) := ⟨by omega, by push_cast; omega⟩
      by_cases hcluster : isClientInCluster c (count + 1) clusterId = true
      · have hloaded := And.intro hrange hcluster
        rw [if_pos hloaded, hcluster]
        cases hsaved : d.balances (count + 1) with
        | none => exact Function.update_self ..
        | some balance => exact ih.trans hsaved
      · have hother : ¬ (((1 : Int) ≤ count + 1 ∧ (count : Int) + 1 ≤ ((count + 1 : ℕ) : Int)) ∧
            isClientInCluster c (count + 1) clusterId = true) := fun h => hcluster h.2
        rw [if_neg hother, Bool.eq_false_iff.mpr hcluster]
        exact ih
    · have hsame : ((1 ≤ a ∧ a ≤ ((count + 1 : ℕ) : Int)) ∧ isClientInCluster c a clusterId = true) ↔
          ((1 ≤ a ∧ a ≤ count) ∧ isClientInCluster c a clusterId = true) := by
        push_cast
        constructor
        · exact fun h => ⟨⟨h.1.1, by omega⟩, h.2⟩
        · exact fun h => ⟨⟨h.1.1, by omega⟩, h.2⟩
      rw [if_congr hsame rfl rfl, ← ih]
      split
      · exact Function.update_of_ne hnew ..
      · rfl

theorem file_initWrites (c : Constants) (clusterId : Int) (d : Disk) (count : ℕ) :
    ((initWrites c clusterId d count).foldl Disk.write d).file = d.file := by
  refine List.foldlRecOn (motive := fun d' => d'.file = d.file) _ Disk.write rfl ?_
  intro d' hd' w hw
  obtain ⟨i, -, rfl⟩ := List.mem_map.mp hw
  exact hd'

/-- The writes of a start leave the disk of the server that has started. -/
theorem foldl_bootWrites (c : Constants) (serverId : Int) (d : Disk) :
    (bootWrites c serverId d).foldl Disk.write d = (ServerImpl.boot c serverId d).disk := by
  have hfile := file_initWrites c (getClusterIdFromServerId c serverId) d totalClients.toNat
  have hbalances : ((initWrites c (getClusterIdFromServerId c serverId) d totalClients.toNat).foldl Disk.write d).balances =
      (ServerImpl.boot c serverId d).ledger.dbBalances := by
    funext a
    rw [balances_initWrites]
    exact if_congr and_assoc rfl rfl
  rw [bootWrites, List.foldl_append]
  show Disk.mk _ _ _ = Disk.mk _ _ _
  rw [hfile, hbalances]
  rfl

end Disk

/-! ## The two levels -/

theorem showInt_ne_ballotKey (z : Int) : showInt z ≠ ballotKey := by
  intro h
  have hmem : '_' ∈ showInt z := by
    rw [h]
    decide
  exact ne_of_mem_showInt hmem (by decide) (by decide) rfl

/-- The numbers of the write fit the types they are written from. -/
def Write.Fits : Write → Prop
  | .append line => line.Fits
  | .putBalance _ _ => True
  | .putBallotNum num => InRange 32 num

instance : (w : Write) → Decidable w.Fits
  | .append line => inferInstanceAs (Decidable line.Fits)
  | .putBalance _ _ => .isTrue trivial
  | .putBallotNum num => inferInstanceAs (Decidable (InRange 32 num))

/-- A balance fits its own type. -/
theorem inRange_toInt (balance : Int32) : InRange 32 balance.toInt :=
  ⟨balance.le_toInt, balance.toInt_lt⟩

/-- The texts are those of the lines and numbers, which fit their types. -/
structure Storage.Represents (s : Storage) (d : Disk) : Prop where
  bytes : s.bytes = encode d.file
  balances : ∀ a, s.db[showInt a]? = (d.balances a).map fun balance => showInt balance.toInt
  ballotNum : s.db[ballotKey]? = d.ballotNum.map showInt
  lines : ∀ l ∈ d.file, l.Fits
  ballot : ∀ num ∈ d.ballotNum, InRange 32 num

namespace Storage

variable {c : Constants} {serverId : Int} {s s' : Storage} {d : Disk}

theorem represents_empty : empty.Represents .empty where
  bytes := rfl
  balances _ := ExtTreeMap.getElem?_empty
  ballotNum := ExtTreeMap.getElem?_empty
  lines l hl := absurd hl List.not_mem_nil
  ballot num h := by cases h

/-- **Every write keeps it.** -/
theorem Represents.write (h : s.Represents d) {w : Write} (hw : w.Fits) : (s.write w).Represents (d.write w) := by
  cases w with
  | append line =>
    refine ⟨?_, h.balances, h.ballotNum, fun l hl => ?_, h.ballot⟩
    · show s.bytes ++ encode [line] = encode (d.file ++ [line])
      rw [h.bytes, encode_append]
    · rcases List.mem_append.mp hl with hold | hnew
      · exact h.lines l hold
      · rw [List.mem_singleton.mp hnew]
        exact hw
  | putBalance account balance =>
    refine ⟨h.bytes, fun a => ?_, ?_, h.lines, h.ballot⟩
    · show (s.db.insert (showInt account) (showInt balance.toInt))[showInt a]? =
        (Function.update d.balances account (some balance) a).map fun balance => showInt balance.toInt
      rw [ExtTreeMap.getElem?_insert]
      simp only [Std.compare_eq_iff_eq]
      by_cases ha : a = account
      · rw [ha, if_pos rfl, Function.update_self]
        rfl
      · rw [if_neg fun heq => ha (showInt_injective heq).symm, Function.update_of_ne ha]
        exact h.balances a
    · show (s.db.insert (showInt account) (showInt balance.toInt))[ballotKey]? = _
      rw [ExtTreeMap.getElem?_insert]
      simp only [Std.compare_eq_iff_eq, if_neg (showInt_ne_ballotKey account)]
      exact h.ballotNum
  | putBallotNum num =>
    refine ⟨h.bytes, fun a => ?_, ?_, h.lines, fun n hn => ?_⟩
    · show (s.db.insert ballotKey (showInt num))[showInt a]? = _
      rw [ExtTreeMap.getElem?_insert]
      simp only [Std.compare_eq_iff_eq, if_neg (showInt_ne_ballotKey a).symm]
      exact h.balances a
    · exact ExtTreeMap.getElem?_insert_self
    · cases hn
      exact hw

theorem Represents.writes (h : s.Represents d) {ws : List Write} (hws : ∀ w ∈ ws, w.Fits) :
    (ws.foldl Storage.write s).Represents (ws.foldl Disk.write d) := by
  induction ws generalizing s d with
  | nil => exact h
  | cons w ws ih =>
    obtain ⟨hw, hws⟩ := List.forall_mem_cons.mp hws
    exact ih (h.write hw) hws

theorem Represents.effects (h : s.Represents d) {fx : List Effect} (hfx : ∀ w, .write w ∈ fx → w.Fits) :
    (fx.foldl effect s).Represents (fx.foldl Disk.effect d) := by
  induction fx generalizing s d with
  | nil => exact h
  | cons x fx ih =>
    have hrest : ∀ w, .write w ∈ fx → w.Fits := fun w hw => hfx w (List.mem_cons_of_mem _ hw)
    cases x with
    | write w => exact ih (h.write (hfx w List.mem_cons_self)) hrest
    | answer b ack => exact ih h hrest

/-! ## A start -/

theorem fits_initWrites (c : Constants) (clusterId : Int) (d : Disk) (count : ℕ) :
    ∀ w ∈ initWrites c clusterId d count, w.Fits := by
  intro w hw
  obtain ⟨i, -, rfl⟩ := List.mem_map.mp hw
  trivial

/-- The balances that the first `count` turns of the loop read. -/
def loadedBalances (c : Constants) (clusterId : Int) (d : Disk) (count : ℕ) (a : Int) : Int32 :=
  if (1 ≤ a ∧ a ≤ count) ∧ isClientInCluster c a clusterId = true then (d.balances a).getD 10 else 0

theorem loadedBalances_succ (c : Constants) (clusterId : Int) (d : Disk) (count : ℕ) :
    loadedBalances c clusterId d (count + 1) =
      if isClientInCluster c (count + 1) clusterId then
        Function.update (loadedBalances c clusterId d count) (count + 1) ((d.balances (count + 1)).getD 10)
      else loadedBalances c clusterId d count := by
  funext a
  by_cases ha : a = count + 1
  · subst ha
    by_cases hcluster : isClientInCluster c (count + 1) clusterId = true
    · rw [if_pos hcluster, Function.update_self]
      exact if_pos ⟨⟨by omega, by push_cast; omega⟩, hcluster⟩
    · rw [if_neg hcluster, loadedBalances, loadedBalances, if_neg fun h => hcluster h.2, if_neg fun h => hcluster h.2]
  · have hsame : loadedBalances c clusterId d (count + 1) a = loadedBalances c clusterId d count a := by
      refine if_congr (and_congr_left fun _ => ?_) rfl rfl
      push_cast
      omega
    rw [hsame]
    split
    · rw [Function.update_of_ne ha]
    · rfl

/-- **The loop over the accounts**, by induction on its turns: it reads what is saved, and 10 where nothing is. -/
theorem Represents.loadBalances (h : s.Represents d) (c : Constants) (clusterId : Int) (count : ℕ) :
    (List.range count).foldlM (loadBalance c clusterId s) (fun _ => 0, []) =
      some (loadedBalances c clusterId d count, initWrites c clusterId d count) := by
  induction count with
  | zero =>
    have hnone : loadedBalances c clusterId d 0 = fun _ => 0 := by
      funext a
      exact if_neg fun ha => by omega
    rw [hnone]
    rfl
  | succ count ih =>
    -- the writes of the turns before are about other accounts
    have hfound := (h.writes (fits_initWrites c clusterId d count)).balances (count + 1)
    rw [Disk.balances_initWrites, if_neg fun ha => by omega] at hfound
    rw [List.range_succ, List.foldlM_append, ih, initWrites_succ, loadedBalances_succ]
    show loadBalance c clusterId s _ count >>= pure = _
    rw [bind_pure, loadBalance]
    by_cases hcluster : isClientInCluster c (count + 1) clusterId = true
    · rw [if_pos hcluster, if_pos hcluster, hcluster]
      cases hsaved : d.balances (count + 1) with
      | none =>
        rw [hsaved] at hfound
        simp only [hfound, Option.map_none]
        rfl
      | some balance =>
        rw [hsaved] at hfound
        simp only [hfound, Option.map_some, stoi_showInt, if_pos (inRange_toInt balance)]
        simp [Except.toOption, Int32.ofInt_toInt]
    · rw [if_neg hcluster, if_neg hcluster, Bool.eq_false_iff.mpr hcluster]
      simp

theorem inRange_scan {b : Int} (hb : InRange 32 b) {file : List WalLine} (hfile : ∀ l ∈ file, l.Fits) :
    InRange 32 (Recovery.scan b file).ballotNum := by
  induction file using List.reverseRecOn with
  | nil => exact hb
  | append_singleton file l ih =>
    have hbefore := ih fun l' hl' => hfile l' (List.mem_append_left _ hl')
    have hline : l.Fits := hfile l (List.mem_append_right _ List.mem_cons_self)
    rw [Recovery.scan_append, Recovery.ballotNum_readLine]
    rcases le_total (Recovery.scan b file).ballotNum l.ballotNum with hle | hle
    · rw [max_eq_right hle]
      cases hline with
      | cons _ hrest => cases hrest with
        | cons hballot _ => exact hballot
    · rw [max_eq_left hle]
      exact hbefore

theorem Represents.ballotNum_getD (h : s.Represents d) : InRange 32 (d.ballotNum.getD 0) := by
  cases hballot : d.ballotNum with
  | none => decide
  | some num => exact h.ballot num hballot

theorem Represents.fits_bootWrites (h : s.Represents d) (c : Constants) (serverId : Int) :
    ∀ w ∈ bootWrites c serverId d, w.Fits := by
  intro w hw
  rcases List.mem_append.mp hw with hinit | hlast
  · exact fits_initWrites _ _ _ _ w hinit
  · rw [List.mem_singleton.mp hlast]
    exact inRange_scan h.ballotNum_getD h.lines

/-- What a server has in memory is what was read. -/
structure Loaded.Matches (loaded : Loaded) (t : ServerImpl) : Prop where
  balances : loaded.balances = t.ledger.balances
  ballotNum : loaded.recovery.ballotNum = t.ballotNum
  log : loaded.recovery.log = t.ledger.log
  lastInserted : loaded.recovery.lastInserted = t.ledger.lastInserted
  /-- The index of pending transactions, with offsets for line numbers. -/
  index : ∀ tid : Int, loaded.recovery.transferIndex[tid]? =
    t.ledger.wal.transferIndex[tid]?.map (offset t.ledger.wal.file)

/-- **A start on the texts** reads and writes what a start on the numbers does. -/
theorem Represents.run (h : s.Represents d) (c : Constants) (serverId : Int) :
    ∃ loaded, s.run c serverId = some (loaded, bootWrites c serverId d) ∧
      loaded.Matches (ServerImpl.boot c serverId d) := by
  have hscan := Recovery.scanText_encode (d.ballotNum.getD 0) h.lines
  rw [← h.bytes] at hscan
  refine ⟨{ balances := loadedBalances c (getClusterIdFromServerId c serverId) d totalClients.toNat
            recovery := Recovery.scanText (d.ballotNum.getD 0) s.bytes }, ?_, ?_⟩
  · have hballot : s.loadBallotNum = some (d.ballotNum.getD 0) := by
      rw [loadBallotNum, h.ballotNum]
      cases hnum : d.ballotNum with
      | none => rfl
      | some num =>
        simp only [Option.map_some, stoi_showInt, if_pos (h.ballot num hnum)]
        rfl
    simp only [Storage.run, hballot, h.loadBalances, bootWrites, ← hscan.ballotNum, Option.bind_eq_bind, Option.bind_some,
      Option.pure_def]
  · refine ⟨?_, hscan.ballotNum, hscan.log, hscan.lastInserted, hscan.index⟩
    funext a
    exact if_congr and_assoc rfl rfl

theorem Represents.boot (h : s.Represents d) (c : Constants) (serverId : Int) :
    ∃ loaded s', s.boot c serverId = some (loaded, s') ∧ loaded.Matches (ServerImpl.boot c serverId d) ∧
      s'.Represents (ServerImpl.boot c serverId d).disk := by
  obtain ⟨loaded, hrun, hmatches⟩ := h.run c serverId
  refine ⟨loaded, (bootWrites c serverId d).foldl Storage.write s, by rw [Storage.boot, hrun]; rfl, hmatches, ?_⟩
  rw [← Disk.foldl_bootWrites]
  exact h.writes (h.fits_bootWrites c serverId)

/-- Any number of starts that are stopped leave a disk on which the next start finds the same. -/
theorem Represents.stopped (h : s.Represents d) (c : Constants) (serverId : Int) (stops : List ℕ) :
    ∃ s' d', stops.foldlM (bootStopped c serverId) s = some s' ∧ s'.Represents d' ∧
      ServerImpl.boot c serverId d' = ServerImpl.boot c serverId d := by
  induction stops generalizing s d with
  | nil => exact ⟨s, d, rfl, h, rfl⟩
  | cons k stops ih =>
    obtain ⟨loaded, hrun, -⟩ := h.run c serverId
    have hstopped := h.writes fun w hw => h.fits_bootWrites c serverId w (List.mem_of_mem_take (i := k) hw)
    obtain ⟨s', d', hrest, hrepr, hboot⟩ := ih hstopped
    refine ⟨s', d', ?_, hrepr, hboot.trans (Disk.boot_interrupted c serverId d k)⟩
    rw [List.foldlM_cons, bootStopped, hrun]
    exact hrest

end Storage

/-! ## Whole lives -/

/-- The numbers in the durable write of an effect fit. -/
def Effect.Fits : Effect → Prop
  | .write w => w.Fits
  | .answer _ _ => True

instance : (x : Effect) → Decidable x.Fits
  | .write w => inferInstanceAs (Decidable w.Fits)
  | .answer _ _ => inferInstanceAs (Decidable True)

/-- The event whose handler runs, to its end or not. -/
def ProcessEvent.event : ProcessEvent → Event
  | .handle e => e
  | .crash e _ => e

/-- All that the handler writes fits the types of the source. -/
def Process.writesFit (p : Process) (ev : ProcessEvent) : Prop := ∀ x ∈ p.server.effects ev.event, x.Fits

instance (p : Process) (ev : ProcessEvent) : Decidable (p.writesFit ev) := inferInstanceAs (Decidable (∀ _ ∈ _, _))

namespace Storage

/-- What one event of a process does to its files. -/
def step (c : Constants) (serverId : Int) (s : Storage) (p : Process) : ProcessEvent → Option Storage
  | .handle e => some ((p.server.effects e).foldl effect s)
  | .crash e k => ((((p.server.effects e).take k).foldl effect s).boot c serverId).map Prod.snd

/-- The files of a process after some events. -/
def after (c : Constants) (serverId : Int) (s : Storage) (p : Process) : List ProcessEvent → Option Storage
  | [] => some s
  | ev :: es => do
    let s ← s.step c serverId p ev
    s.after c serverId (p.step ev) es

end Storage

namespace Process

/-- A process keeps its constants and its id. -/
theorem identity_step (p : Process) (ev : ProcessEvent) : (p.step ev).server.ledger.constants = p.server.ledger.constants ∧
    (p.step ev).server.serverId = p.server.serverId := by
  cases ev with
  | handle e => exact ⟨(p.server.handle_shard e).1, (ServerImpl.moves_of_handle rfl).identity.1⟩
  | crash e k => exact ⟨rfl, rfl⟩

/-- The files of a process represent the disk of its server. -/
structure Stored (c : Constants) (serverId : Int) (p : Process) (s : Storage) : Prop where
  keeps : p.Keeps
  constants : p.server.ledger.constants = c
  serverId : p.server.serverId = serverId
  represents : s.Represents p.server.disk

variable {c : Constants} {serverId : Int} {p : Process} {s : Storage}

/-- One event. -/
theorem Stored.step (h : p.Stored c serverId s) {ev : ProcessEvent} (hfits : p.writesFit ev) :
    ∃ s', s.step c serverId p ev = some s' ∧ (p.step ev).Stored c serverId s' := by
  obtain ⟨hconst, hid⟩ := p.identity_step ev
  have hkeeps := h.keeps.step ev
  have hwrites : ∀ w, .write w ∈ p.server.effects ev.event → w.Fits := fun w hw => hfits _ hw
  cases ev with
  | handle e =>
    refine ⟨_, rfl, hkeeps, hconst.trans h.constants, hid.trans h.serverId, ?_⟩
    show Storage.Represents _ (p.server.handle e).disk
    rw [← (ServerImpl.leads_effects h.keeps.vouched.ledger.wal e).disk]
    exact h.represents.effects hwrites
  | crash e k =>
    have hcut : (((p.server.effects e).take k).foldl Storage.effect s).Represents _ :=
      h.represents.effects fun w hw => hwrites w (List.mem_of_mem_take hw)
    obtain ⟨loaded, s', hboot, -, hrepr⟩ := hcut.boot c serverId
    refine ⟨s', by rw [Storage.step, hboot]; rfl, hkeeps, hconst.trans h.constants, hid.trans h.serverId, ?_⟩
    show s'.Represents (ServerImpl.boot p.server.ledger.constants p.server.serverId _).disk
    rw [h.constants, h.serverId]
    exact hrepr

/-- A whole life. -/
theorem Stored.after (h : p.Stored c serverId s) {es : List ProcessEvent} (hfits : okRun Process.step writesFit p es) :
    ∃ s', s.after c serverId p es = some s' ∧ (es.foldl Process.step p).Stored c serverId s' := by
  induction es generalizing p s with
  | nil => exact ⟨s, rfl, h⟩
  | cons ev es ih =>
    obtain ⟨s₁, hstep, hstored⟩ := h.step hfits.1
    obtain ⟨s', hafter, hstored'⟩ := ih hstored hfits.2
    refine ⟨s', ?_, hstored'⟩
    rw [Storage.after, hstep]
    exact hafter

end Process

/-- **The files bring everything back.**  Let a server start on empty files, handle any events, stop at any points inside
their handlers and start again, where all numbers it writes fit the types of the source.  Its next start, after any number
of starts that are themselves stopped between their writes, reads from the bytes of the WAL and the texts of LevelDB the
balances, the ballot number, the log and the index of pending transactions that a start on the lines and numbers finds,
and leaves files for which the same holds. -/
theorem storage_restores (c : Constants) (serverId : Int) (es : List ProcessEvent)
    (hfits : okRun Process.step Process.writesFit (.fresh c serverId) es) (stops : List ℕ) :
    ∃ loaded₀ s₀ s s' loaded s'', Storage.empty.boot c serverId = some (loaded₀, s₀) ∧
      s₀.after c serverId (.fresh c serverId) es = some s ∧ stops.foldlM (Storage.bootStopped c serverId) s = some s' ∧
      s'.boot c serverId = some (loaded, s'') ∧ loaded.Matches (Process.run c serverId es).server.restart ∧
      s''.Represents (Process.run c serverId es).server.restart.disk := by
  obtain ⟨loaded₀, s₀, hfirst, -, hrepr₀⟩ := Storage.represents_empty.boot c serverId
  have hstored₀ : (Process.fresh c serverId).Stored c serverId s₀ :=
    ⟨Process.keeps_run c serverId [], rfl, rfl, hrepr₀⟩
  obtain ⟨s, hafter, hstored⟩ := hstored₀.after hfits
  obtain ⟨s', d', hstops, hrepr', hsame⟩ := hstored.represents.stopped c serverId stops
  obtain ⟨loaded, s'', hboot, hmatches, hrepr''⟩ := hrepr'.boot c serverId
  have hrestart : ServerImpl.boot c serverId d' = (Process.run c serverId es).server.restart := by
    rw [hsame, ServerImpl.restart]
    show _ = ServerImpl.boot (es.foldl Process.step _).server.ledger.constants (es.foldl Process.step _).server.serverId _
    rw [hstored.constants, hstored.serverId]
    rfl
  rw [hrestart] at hmatches hrepr''
  exact ⟨loaded₀, s₀, s, s', loaded, s'', hfirst, hafter, hstops, hboot, hmatches, hrepr''⟩

/-- The server of `stoppedTwice`, whose next start is itself stopped twice, reads its three entries from the file. -/
theorem storage_restores_stoppedTwice : ∃ loaded₀ s₀ s s' loaded s'',
    Storage.empty.boot ⟨3, 3⟩ 1 = some (loaded₀, s₀) ∧ s₀.after ⟨3, 3⟩ 1 (.fresh ⟨3, 3⟩ 1) stoppedTwice = some s ∧
      [0, 7].foldlM (Storage.bootStopped ⟨3, 3⟩ 1) s = some s' ∧ s'.boot ⟨3, 3⟩ 1 = some (loaded, s'') ∧
      loaded.recovery.log.map (fun x => (x.tid, x.status)) = [(11, .committed), (12, .prepared), (12, .committed)] := by
  obtain ⟨loaded₀, s₀, s, s', loaded, s'', hfirst, hafter, hstops, hboot, hmatches, -⟩ :=
    storage_restores ⟨3, 3⟩ 1 stoppedTwice (by decide +kernel) [0, 7]
  refine ⟨loaded₀, s₀, s, s', loaded, s'', hfirst, hafter, hstops, hboot, ?_⟩
  rw [hmatches.log]
  decide +kernel

end MultiPaxosDB
