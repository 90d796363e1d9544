import Chording.Proofs.AddressStates
import Chording.Proofs.Spelling

/-!
# Calls that cannot fail

The calls of a recognizer once more, carried out so that they can fail (`Guarded`).  A loop takes one round after
another, and is endless if it needs more of them than it may take.  Only a smaller number is subtracted, and no more is
cut off than there is.  A chord is known by its position only, and one that is not in the table is passed over without a
press leaving the queue.  No address may be taken that is taken already.

None of this happens.  Every round of a loop that goes on takes a press from the queue (`loop_eq_ok`), and a chord that
is found is in the table and takes two presses or more (`settle_shortens`).  So every run ends, with what the
recognizer answers (`run_never_fails`).
-/

namespace Chording

/-- What can go wrong in a call. -/
inductive Fault
  /-- A loop has taken all the rounds that it may take. -/
  | endless
  | underflow
  | outOfBounds
  /-- An address was taken that was taken already. -/
  | takenTwice
deriving DecidableEq

namespace Guarded

/-! ### Steps that can fail -/

def minus (a b : Nat) : Except Fault Nat :=
  if b ≤ a then .ok (a - b) else .error .underflow

/-- The first `n` entries of a list, and the others. -/
def cut {α : Type} (n : Nat) (l : List α) : Except Fault (List α × List α) :=
  if n ≤ l.length then .ok (l.take n, l.drop n) else .error .outOfBounds

/-- What comes of one outcome after another. -/
def andThen (o : Outcome) (next : Recognizer → Except Fault Outcome) : Except Fault Outcome := do
  return (← next o.recognizer).after o.emissions

/-- Whether one of the keys from the position `i` on also stands before it. -/
def repeatsFrom (keys : List KeyCode) (i : Nat) : List KeyCode → Except Fault Bool
  | [] => return false
  | key :: others => do
    let (before, _) ← cut i keys
    if key ∈ before then return true else repeatsFrom keys (i + 1) others

def classify (t : ChordTable) (keys : List KeyCode) : Except Fault Match := do
  if keys = [] then return .impossible
  if ← repeatsFrom keys 0 keys then return .impossible
  match t.candidateOfSize? keys, t.hasLonger keys with
  | some e, false => return .complete e
  | some e, true => return .deferred e
  | none, true => return .incomplete
  | none, false => return .impossible

def spelled? (t : ChordTable) (keys : List KeyCode) : Except Fault (Option Entry) := do
  return (← classify t keys).spelled?

/-- The position of the chord that the longest front of at most `n` keys spells, and the length of the front. -/
def longestFrontUpTo? (t : ChordTable) (keys : List KeyCode) : Nat → Except Fault (Option (Nat × Nat))
  | 0 => return none
  | n + 1 => do
    if n + 1 < minChordKeys then return none
    let (front, _) ← cut (n + 1) keys
    match ← spelled? t front with
    | some e => return some (e.id, n + 1)
    | none => longestFrontUpTo? t keys n

/-- The front of all keys is not cut off. -/
def longestFront? (t : ChordTable) (keys : List KeyCode) : Except Fault (Option (Nat × Nat)) := do
  match ← spelled? t keys with
  | some e => return some (e.id, keys.length)
  | none => longestFrontUpTo? t keys (keys.length - 1)

/-- The oldest `n` presses become the chord at a position of the table, if there is one. -/
def activate (id n now : Nat) (r : Recognizer) : Except Fault Outcome :=
  match r.table.get? id with
  | none => return ⟨r, []⟩
  | some chord => do
    let (taken, rest) ← cut (min n r.pending.size) r.pending.entries
    match taken with
    | [] => return ⟨r.withQueue rest, []⟩
    | first :: others =>
      if (taken.map (·.addr)).Nodup ∧ ∀ p ∈ taken, r.isConsumed p.addr = false then
        return {
          recognizer := (r.withQueue rest).withActive (r.active.activate id chord.action taken now).active
          emissions := [.resolved (.chord ⟨id, chord⟩ first others) now] }
      else throw .takenTwice

/-- Ends the wait for longer chords: the outcome, if a front of the queue spells a chord. -/
def settle (now : Nat) (r : Recognizer) : Except Fault (Option Outcome) := do
  match ← longestFront? r.table r.pending.keys with
  | some (id, n) => return some (← activate id n now r)
  | none => return none

/-- The oldest press goes on as it came. -/
def expireOldest (now : Nat) (r : Recognizer) : Outcome :=
  match r.pending.entries with
  | [] => ⟨r, []⟩
  | p :: ps => r.replay now [p] ps

/-! ### Loops -/

/-- What a round of a loop comes to. -/
inductive Round
  | again (o : Outcome)
  | done (o : Outcome)

/-- One round after another, as long as there are more to come. -/
def loop (round : Recognizer → Except Fault Round) : Nat → Recognizer → Except Fault Outcome
  | 0, _ => throw .endless
  | rounds + 1, r => do
    match ← round r with
    | .done o => return o
    | .again o => andThen o (loop round rounds)

def resolveFront (now : Nat) (r : Recognizer) : Except Fault Outcome := do
  return (← settle now r).getD (expireOldest now r)

/-- The wait is over if the keys spell a chord for good, or may not become one. -/
def recheckRound (now : Nat) (r : Recognizer) : Except Fault Round := do
  if r.pending.isEmpty then return .done ⟨r, []⟩
  match ← classify r.table r.pending.keys with
  | .complete e => return .done (← activate e.id r.pending.keys.length now r)
  | .incomplete | .deferred _ => return .done ⟨r, []⟩
  | .impossible => return .again (← resolveFront now r)

def recheck (rounds now : Nat) : Recognizer → Except Fault Outcome :=
  loop (recheckRound now) rounds

/-- The wait of the oldest press is over if it is too old. -/
def expireRound (rounds now : Nat) (r : Recognizer) : Except Fault Round := do
  match r.pending.front? with
  | none => return .done ⟨r, []⟩
  | some oldest =>
    if now - oldest.time ≤ r.timeout.toNat then return .done ⟨r, []⟩
    match ← settle now r with
    | some o => return .again (← andThen o (recheck rounds now))
    | none =>
      let _age ← minus now oldest.time
      return .again (← andThen (expireOldest now r) (recheck rounds now))

/-- The whole queue is resolved. -/
def resolveRound (now : Nat) (r : Recognizer) : Except Fault Round := do
  if r.pending.isEmpty then return .done ⟨r, []⟩
  return .again (← resolveFront now r)

/-- The whole queue goes on as it came. -/
def replayRound (now : Nat) (r : Recognizer) : Except Fault Round := do
  if r.pending.isEmpty then return .done ⟨r, []⟩
  return .again (expireOldest now r)

/-- The presses ahead of an address go on as they came. -/
def clearRound (a : Address) (now : Nat) (r : Recognizer) : Except Fault Round := do
  match r.pending.front? with
  | none => return .done ⟨r, []⟩
  | some p =>
    if p.addr = a then return .done ⟨r, []⟩
    return .again (expireOldest now r)

/-! ### Calls -/

def hold (rounds : Nat) (event : KeyEvent) (r : Recognizer) : Except Fault Outcome := do
  let (result, pending) := r.pending.push (.ofEvent event)
  let held := { r with pending := pending }
  match result with
  | .queued =>
    let _place ← minus held.pending.size 1
    recheck rounds event.time held
  | .evicted oldest => andThen ⟨held, [.resolved (.replay oldest) event.time]⟩ (recheck rounds event.time)
  | .dropped => return ⟨r, []⟩

def press (rounds : Nat) (event : KeyEvent) (layers : ActiveLayers) (r : Recognizer) : Except Fault Outcome := do
  if r.isSuppressed layers then
    andThen (← loop (replayRound event.time) rounds r) fun s => return s.pass event
  else if !r.table.isParticipant event.key then
    andThen (← loop (resolveRound event.time) rounds r) fun s => return s.pass event
  else if r.isPending event.addr || r.isConsumed event.addr then return ⟨r, []⟩
  else hold rounds event r

/-- The press at an address goes on, wherever it stands in the queue. -/
def takeOut (a : Address) (now : Nat) (r : Recognizer) : Outcome :=
  let (pressed?, pending) := r.pending.removeAt a
  ⟨{ r with pending := pending }, (pressed?.map fun p => .resolved (.replay p) now).toList⟩

def releasePending (rounds : Nat) (event : KeyEvent) (r : Recognizer) : Except Fault Outcome := do
  andThen (← loop (clearRound event.addr event.time) rounds r) fun s =>
    andThen (takeOut event.addr event.time s) fun s => andThen (s.pass event) (recheck rounds event.time)

/-- The wait for longer chords ends. -/
def settleOnce (rounds now : Nat) (r : Recognizer) : Except Fault Outcome := do
  match ← settle now r with
  | some o => andThen o (recheck rounds now)
  | none => return ⟨r, []⟩

def release (rounds : Nat) (event : KeyEvent) (r : Recognizer) : Except Fault Outcome := do
  if r.isPending event.addr then
    andThen (← settleOnce rounds event.time r) fun s =>
      if s.isPending event.addr then releasePending rounds event s else return s.releaseIdle event
  else return r.releaseIdle event

def step (rounds : Nat) (r : Recognizer) : Recognizer.Call → Except Fault Outcome
  | .key event layers => match event.edge with
    | .down => press rounds event layers r
    | .up => release rounds event r
  | .tick now => if r.timeout = 0 then return ⟨r, []⟩ else loop (expireRound rounds now) rounds r
  | .flush now => do andThen (← loop (resolveRound now) rounds r) fun s => return s.letGo now
  | .reset => return ⟨r.reset, []⟩

def run (rounds : Nat) (r : Recognizer) : List Recognizer.Call → Except Fault Outcome
  | [] => return ⟨r, []⟩
  | call :: calls => do andThen (← step rounds r call) fun s => run rounds s calls

/-! ### Each step is carried out -/

variable {t : ChordTable} {r : Recognizer}

private theorem andThen_eq_ok {o o' : Outcome} {next : Recognizer → Except Fault Outcome}
    (h : next o.recognizer = .ok o') : andThen o next = .ok (o'.after o.emissions) := by
  rw [andThen, h]
  rfl

private theorem bind_andThen_eq_ok {x : Except Fault Outcome} {o o' : Outcome}
    {next : Recognizer → Except Fault Outcome}
    (h : x = .ok o) (h' : next o.recognizer = .ok o') : (do andThen (← x) next) = .ok (o'.after o.emissions) := by
  rw [h]
  exact andThen_eq_ok h'

private theorem cut_append {α : Type} (front rest : List α) : cut front.length (front ++ rest) = .ok (front, rest) := by
  rw [cut, if_pos (by simp), List.take_left, List.drop_left]

/-- Keys behind distinct ones are looked at until one is repeated. -/
private theorem repeatsFrom_append {front rest : List KeyCode} (hn : front.Nodup) :
    repeatsFrom (front ++ rest) front.length rest = .ok (decide ¬(front ++ rest).Nodup) := by
  induction rest generalizing front with
  | nil => simp [repeatsFrom, hn, pure, Except.pure]
  | cons key others ih =>
    rw [repeatsFrom, cut_append]
    by_cases hk : key ∈ front
    · have hrep : ¬(front ++ key :: others).Nodup := fun h => List.nodup_append.1 h |>.2.2 key hk key (by simp) rfl
      simp [bind, Except.bind, pure, Except.pure, hk, hrep]
    · have hn' : (front ++ [key]).Nodup := List.nodup_append.2 ⟨hn, List.nodup_singleton key, by
        rintro a ha _ hb rfl
        exact hk (List.mem_singleton.1 hb ▸ ha)⟩
      have h := ih hn'
      rw [List.append_assoc, List.length_append] at h
      simpa [bind, Except.bind, hk] using h

private theorem classify_eq (t : ChordTable) (keys : List KeyCode) : classify t keys = .ok (t.classify keys) := by
  have hrep : repeatsFrom keys 0 keys = .ok (decide ¬keys.Nodup) := repeatsFrom_append List.nodup_nil
  rw [classify, ChordTable.classify, hrep]
  by_cases hne : keys = []
  · rw [if_pos hne, if_pos (Or.inl hne)]
    rfl
  by_cases hn : keys.Nodup
  · rw [if_neg hne, if_neg (by simp [hne, hn])]
    cases t.candidateOfSize? keys <;> cases t.hasLonger keys <;> simp [bind, Except.bind, pure, Except.pure, hn]
  · rw [if_neg hne, if_pos (Or.inr hn)]
    simp [bind, Except.bind, pure, Except.pure, hn]

private theorem spelled?_eq (t : ChordTable) (keys : List KeyCode) : spelled? t keys = .ok (t.spelled? keys) := by
  rw [spelled?, classify_eq]
  rfl

private theorem longestFrontUpTo?_eq {keys : List KeyCode} {n : Nat} (h : n ≤ keys.length) :
    longestFrontUpTo? t keys n = .ok ((t.longestFrontUpTo? keys n).map fun (e, m) => (e.id, m)) := by
  induction n with
  | zero => rfl
  | succ n ih =>
    rw [longestFrontUpTo?, ChordTable.longestFrontUpTo?]
    by_cases hn : n + 1 < minChordKeys
    · -- one key spells no chord, so it does not matter that it is not asked
      obtain rfl : n = 0 := Nat.lt_one_iff.1 (Nat.lt_of_succ_lt_succ hn)
      have hs : t.spelled? (keys.take 1) = none := by
        cases hs : t.spelled? (keys.take 1) with
        | none => rfl
        | some e =>
          have h2 := ChordTable.two_le_of_spelled? hs
          rw [List.length_take] at h2
          omega
      rw [hs]
      rfl
    · have hcut : cut (n + 1) keys = .ok (keys.take (n + 1), keys.drop (n + 1)) := if_pos h
      rw [if_neg hn, hcut]
      simp only [bind, Except.bind, spelled?_eq]
      cases t.spelled? (keys.take (n + 1)) with
      | some e => rfl
      | none => exact ih (Nat.le_of_succ_le h)

private theorem longestFront?_eq (t : ChordTable) (keys : List KeyCode) :
    longestFront? t keys = .ok ((t.longestFront? keys).map fun (e, n) => (e.id, n)) := by
  rw [longestFront?, spelled?_eq]
  cases hs : t.spelled? keys with
  | some e =>
    rw [ChordTable.longestFront?_of_spelled hs]
    rfl
  | none =>
    have hproper : t.longestFront? keys = t.longestFrontUpTo? keys (keys.length - 1) := by
      cases keys with
      | nil => rfl
      | cons key keys =>
        rw [ChordTable.longestFront?, List.length_cons, ChordTable.longestFrontUpTo?,
          List.take_of_length_le (by simp), hs]
        rfl
    rw [hproper]
    exact longestFrontUpTo?_eq (Nat.sub_le _ _)

/-! ### Chords that are found -/

/-- A front of the queue that spells a chord, told by its presses. -/
private theorem exists_split_of_spelled? {e : Entry} {n : Nat} (hn : n ≤ r.pending.keys.length)
    (hs : r.table.spelled? (r.pending.keys.take n) = some e) :
    ∃ first others rest, r.pending.entries = first :: others ++ rest ∧ (first :: others).length = n ∧
      (Resolution.chord e first others).Spelled r.table := by
  have hlen : (r.pending.entries.take n).length = n := by
    rw [List.length_take]
    exact Nat.min_eq_left (by simpa [PendingQueue.keys] using hn)
  cases hf : r.pending.entries.take n with
  | nil =>
    rw [PendingQueue.keys, ← List.map_take, hf] at hs
    exact absurd (ChordTable.two_le_of_spelled? hs) (by simp)
  | cons first others =>
    refine ⟨first, others, r.pending.entries.drop n, ?_, hf ▸ hlen, ?_⟩
    · rw [← hf, List.take_append_drop]
    · rwa [PendingQueue.keys, ← List.map_take, hf] at hs

/-- A chord of the table takes its presses, if none of their addresses is taken already. -/
private theorem activate_append {e : Entry} {first : Press} {others rest : List Press} (he : e ∈ r.table.entries)
    (hq : r.pending.entries = first :: others ++ rest) (now : Nat) :
    activate e.id (first :: others).length now r =
      if ((first :: others).map (·.addr)).Nodup ∧ ∀ p ∈ first :: others, r.isConsumed p.addr = false then
        .ok (r.resolve now ⟨[.chord e first others], rest⟩)
      else .error .takenTwice := by
  have hmin : min (first :: others).length r.pending.size = (first :: others).length :=
    Nat.min_eq_left (by simp [PendingQueue.size, hq])
  rw [activate, ChordTable.mem_entries.1 he, hmin, hq, cut_append]
  rfl

/-- A chord of the table has taken two presses or more from the queue. -/
structure Shortens (r : Recognizer) (o : Outcome) : Prop where
  exists_entry : ∃ e first others now, e ∈ r.table.entries ∧ o.emissions = [.resolved (.chord e first others) now]
  size_add_two_le : o.recognizer.pending.size + 2 ≤ r.pending.size

private theorem activate_shortens {e : Entry} {n now : Nat} {o : Outcome} (hn : n ≤ r.pending.keys.length)
    (hs : r.table.spelled? (r.pending.keys.take n) = some e) (h : activate e.id n now r = .ok o) : Shortens r o := by
  have he : e ∈ r.table.entries := (ChordTable.of_spelled?_eq_some hs).1
  obtain ⟨first, others, rest, hq, rfl, hfront⟩ := exists_split_of_spelled? hn hs
  have h2 : 2 ≤ (first :: others).length := by simpa using ChordTable.two_le_of_spelled? hfront
  rw [activate_append he hq] at h
  split at h
  · cases h
    refine ⟨⟨e, first, others, now, he, rfl⟩, ?_⟩
    show rest.length + 2 ≤ r.pending.entries.length
    rw [hq, List.length_append]
    omega
  · cases h

theorem settle_shortens {now : Nat} {o : Outcome} (h : settle now r = .ok (some o)) : Shortens r o := by
  rw [settle, longestFront?_eq] at h
  cases hf : r.table.longestFront? r.pending.keys with
  | none =>
    rw [hf] at h
    cases h
  | some found =>
    obtain ⟨e, n⟩ := found
    obtain ⟨-, hn, hs⟩ := ChordTable.longestFrontUpTo?_eq_some hf
    rw [hf] at h
    cases ha : activate e.id n now r with
    | error fault =>
      simp only [Option.map_some, bind, Except.bind, ha] at h
      cases h
    | ok o' =>
      simp only [Option.map_some, bind, Except.bind, ha] at h
      cases h
      exact activate_shortens hn hs ha

private theorem complete_shortens {e : Entry} {now : Nat} {o : Outcome}
    (hc : classify r.table r.pending.keys = .ok (.complete e)) (h : activate e.id r.pending.keys.length now r = .ok o) :
    Shortens r o := by
  rw [classify_eq] at hc
  have hs : r.table.spelled? r.pending.keys = some e := by
    rw [ChordTable.spelled?, Except.ok.inj hc]
    rfl
  exact activate_shortens (Nat.le_refl _) (by rwa [List.take_length]) h

/-- The addresses of pending presses may be taken. -/
private theorem activate_eq (h : r.Coherent) {e : Entry} {first : Press} {others rest : List Press}
    (hq : r.pending.entries = first :: others ++ rest) (hs : (Resolution.chord e first others).Spelled r.table)
    (now : Nat) :
    activate e.id (first :: others).length now r = .ok (r.resolve now ⟨[.chord e first others], rest⟩) := by
  obtain ⟨-, hn, hc⟩ := h.idleFor hq hs
  rw [activate_append (ChordTable.of_spelled?_eq_some hs).1 hq, if_pos ⟨hn, hc⟩]

private theorem settle_eq (h : r.Coherent) (now : Nat) :
    settle now r = .ok ((r.table.settle? r.pending.entries).map fun (s, rest) => r.resolve now ⟨[s], rest⟩) := by
  rw [settle, longestFront?_eq]
  cases hf : r.table.longestFront? r.pending.keys with
  | none =>
    have hnone : r.table.settle? r.pending.entries = none := by
      rw [PendingQueue.keys] at hf
      cases hq : r.pending.entries with
      | nil => rfl
      | cons p ps => rw [ChordTable.settle?, ← hq, hf, Option.map_none]
    rw [hnone]
    rfl
  | some found =>
    obtain ⟨e, n⟩ := found
    obtain ⟨-, hn, hs⟩ := ChordTable.longestFrontUpTo?_eq_some hf
    obtain ⟨first, others, rest, hq, rfl, hfront⟩ := exists_split_of_spelled? hn hs
    rw [PendingQueue.keys, hq] at hf
    rw [hq, ChordTable.settle?_of_longestFront? hf]
    simp only [Option.map_some, bind, Except.bind, activate_eq h hq hfront]
    rfl

private theorem resolveFront_eq (h : r.Coherent) {p : Press} {ps : List Press} (hq : r.pending.entries = p :: ps)
    (now : Nat) :
    resolveFront now r =
      .ok (r.resolve now ⟨[(r.table.resolveFront p ps).1], (r.table.resolveFront p ps).2⟩) := by
  rw [resolveFront, settle_eq h, hq, ChordTable.resolveFront, expireOldest, hq]
  cases r.table.settle? (p :: ps) <;> rfl

/-! ### Loops end -/

/-- The recognizer is in order, and its queue never has as many presses as there are rounds. -/
structure Within (rounds : Nat) (r : Recognizer) : Prop where
  coherent : r.Coherent
  capacity_lt : r.pending.capacity < rounds

variable {rounds : Nat}

private theorem Within.size_lt (h : Within rounds r) : r.pending.size < rounds :=
  Nat.lt_of_le_of_lt h.coherent.size_le h.capacity_lt

private theorem Within.resolve (h : Within rounds r) {resolved : Resolved}
    (hr : r.table.Resolves r.pending.entries resolved) (now : Nat) :
    Within rounds (r.resolve now resolved).recognizer :=
  ⟨(Recognizer.activates_resolve h.coherent hr now).coherent, h.capacity_lt⟩

/-- A round of a loop is the last one, or leaves a shorter queue for the rounds behind it. -/
def Advances (bound : Nat) (result : Recognizer → Outcome) (r : Recognizer) (round : Except Fault Round) : Prop :=
  round = .ok (.done (result r)) ∨
    ∃ o, round = .ok (.again o) ∧ Within bound o.recognizer ∧ o.recognizer.pending.size < r.pending.size ∧
      result r = (result o.recognizer).after o.emissions

private theorem advances_done {bound : Nat} {result : Recognizer → Outcome} {round : Except Fault Round}
    (hround : round = .ok (.done ⟨r, []⟩)) (hresult : result r = ⟨r, []⟩) : Advances bound result r round := by
  left
  rw [hround, hresult]

theorem loop_eq_ok {round : Recognizer → Except Fault Round} {result : Recognizer → Outcome} {bound : Nat}
    (hround : ∀ s, Within bound s → Advances bound result s (round s)) (h : Within bound r)
    (hlt : r.pending.size < rounds) : loop round rounds r = .ok (result r) := by
  induction rounds generalizing r with
  | zero => exact absurd hlt (Nat.not_lt_zero _)
  | succ rounds ih =>
    rw [loop]
    rcases hround r h with hdone | ⟨o, hagain, ho, hsize, hresult⟩
    · rw [hdone]
      rfl
    · rw [hagain, hresult]
      exact andThen_eq_ok (ih ho (Nat.lt_of_lt_of_le hsize (Nat.le_of_lt_succ hlt)))

private theorem resolve_rest {queue : List Press} (hq : r.pending.entries = queue) (now : Nat) :
    r.resolve now (.rest queue) = ⟨r, []⟩ := by
  subst hq
  rfl

/-- What is resolved first, and then the others. -/
private theorem resolve_after (r : Recognizer) (now : Nat) (earlier : List Resolution) (queue : List Press)
    (x : Resolved) : r.resolve now (x.after earlier) =
      ((r.resolve now ⟨earlier, queue⟩).recognizer.resolve now x).after (r.resolve now ⟨earlier, queue⟩).emissions := by
  simp [Recognizer.resolve, Outcome.after, Resolved.after]

/-- The front of the queue is resolved, and there are fewer presses than before. -/
private theorem Within.resolveFront (h : Within rounds r) {p : Press} {ps : List Press}
    (hq : r.pending.entries = p :: ps) (now : Nat) :
    ∃ o, resolveFront now r = .ok o ∧ Within rounds o.recognizer ∧ o.recognizer.pending.size < r.pending.size ∧
      o = r.resolve now ⟨[(r.table.resolveFront p ps).1], (r.table.resolveFront p ps).2⟩ := by
  refine ⟨_, resolveFront_eq h.coherent hq now, h.resolve ⟨?_, ?_⟩ now, ?_, rfl⟩
  · rw [hq, ← r.table.presses_resolveFront p ps]
    simp [Resolved.presses]
  · simpa using r.table.spelled_resolveFront p ps
  · have hlen := r.table.length_resolveFront p ps
    rwa [← hq] at hlen

private theorem advances_recheckRound (h : Within rounds r) (now : Nat) :
    Advances rounds (fun s => s.resolve now (s.table.recheck s.pending.entries)) r (recheckRound now r) := by
  cases hq : r.pending.entries with
  | nil =>
    refine advances_done (by simp [recheckRound, PendingQueue.isEmpty, hq, pure, Except.pure]) ?_
    simp only [hq]
    rw [ChordTable.recheck, resolve_rest hq]
  | cons p ps =>
    rw [recheckRound, classify_eq, PendingQueue.isEmpty, PendingQueue.keys, hq]
    simp only [List.isEmpty_cons, bind, Except.bind, Bool.false_eq_true, if_false]
    cases hc : r.table.classify ((p :: ps).map (·.key)) with
    | complete e =>
      have hs : (Resolution.chord e p ps).Spelled r.table := by
        rw [Resolution.Spelled, ChordTable.spelled?, hc]
        rfl
      have hact := activate_eq h.coherent (hq.trans (List.append_nil _).symm) hs now
      left
      simp only [List.length_map, hact, hq]
      rw [ChordTable.recheck, hc]
      rfl
    | incomplete | deferred =>
      refine advances_done rfl ?_
      simp only [hq]
      rw [ChordTable.recheck, hc, resolve_rest hq]
    | impossible =>
      obtain ⟨o, ho, hwithin, hsize, rfl⟩ := h.resolveFront hq now
      refine Or.inr ⟨_, by rw [ho]; rfl, hwithin, hsize, ?_⟩
      simp only [hq]
      rw [ChordTable.recheck, hc]
      exact resolve_after _ _ _ _ _

private theorem recheck_eq (h : Within rounds r) (now : Nat) : recheck rounds now r = .ok (r.recheck now) :=
  loop_eq_ok (fun _ hs => advances_recheckRound hs now) h h.size_lt

/-- What resolves the front of an old queue is followed by a recheck, whether or not a chord was found. -/
private theorem expireRound_of_old (h : r.Coherent) {p : Press} {ps : List Press} (hq : r.pending.entries = p :: ps)
    {now : Nat} (hold : ¬now - p.time ≤ r.timeout.toNat) :
    expireRound rounds now r = (do
      let o ← resolveFront now r
      return .again (← andThen o (recheck rounds now))) := by
  -- the age is greater than the timeout, and so not cut off at zero
  have hage : minus now p.time = .ok (now - p.time) := if_pos (by omega)
  simp only [expireRound, PendingQueue.front?, hq, List.head?_cons, if_neg hold, resolveFront, settle_eq h]
  cases r.table.settle? (p :: ps) with
  | some found => rfl
  | none =>
    simp only [Option.map_none, bind, Except.bind, hage]
    rfl

private theorem advances_expireRound (h : Within rounds r) (now : Nat) :
    Advances rounds (fun s => s.resolve now (s.table.expire s.timeout.toNat now s.pending.entries)) r
      (expireRound rounds now r) := by
  cases hq : r.pending.entries with
  | nil =>
    refine advances_done (by simp [expireRound, PendingQueue.front?, hq, pure, Except.pure]) ?_
    simp only [hq]
    rw [ChordTable.expire, resolve_rest hq]
  | cons p ps =>
    by_cases hyoung : now - p.time ≤ r.timeout.toNat
    · refine advances_done (by simp [expireRound, PendingQueue.front?, hq, hyoung, pure, Except.pure]) ?_
      simp only [hq]
      rw [ChordTable.expire, if_pos hyoung, resolve_rest hq]
    · obtain ⟨o, ho, hwithin, hsize, rfl⟩ := h.resolveFront hq now
      refine Or.inr ⟨r.resolve now (r.table.resolveFrontAndRecheck p ps), ?_, ?_, ?_, ?_⟩
      · rw [expireRound_of_old h.coherent hq hyoung, ho, ChordTable.resolveFrontAndRecheck, resolve_after]
        simp only [bind, Except.bind, andThen_eq_ok (recheck_eq hwithin now)]
        rfl
      · refine h.resolve ⟨?_, ?_⟩ now
        · rw [hq, ChordTable.presses_resolveFrontAndRecheck]
        · exact List.forall_mem_cons.2 ⟨r.table.spelled_resolveFront p ps, r.table.spelled_recheck _⟩
      · exact Nat.lt_of_le_of_lt (r.table.length_recheck _) hsize
      · simp only [hq]
        rw [ChordTable.expire, if_neg hyoung]
        exact resolve_after _ _ _ _ _

private theorem advances_resolveRound (h : Within rounds r) (now : Nat) :
    Advances rounds (fun s => s.resolve now ⟨s.table.resolveAll s.pending.entries, []⟩) r (resolveRound now r) := by
  cases hq : r.pending.entries with
  | nil =>
    refine advances_done (by simp [resolveRound, PendingQueue.isEmpty, hq, pure, Except.pure]) ?_
    simp only [hq]
    rw [ChordTable.resolveAll]
    exact resolve_rest hq now
  | cons p ps =>
    obtain ⟨o, ho, hwithin, hsize, rfl⟩ := h.resolveFront hq now
    refine Or.inr ⟨_, by simp [resolveRound, PendingQueue.isEmpty, hq, ho, bind, Except.bind, pure, Except.pure],
      hwithin, hsize, ?_⟩
    simp only [hq]
    rw [ChordTable.resolveAll]
    rfl

/-- The oldest press goes on as it came, and there are fewer presses than before. -/
private theorem Within.expireOldest (h : Within rounds r) {p : Press} {ps : List Press}
    (hq : r.pending.entries = p :: ps) (now : Nat) :
    expireOldest now r = r.replay now [p] ps ∧ Within rounds (r.replay now [p] ps).recognizer ∧
      (r.replay now [p] ps).recognizer.pending.size < r.pending.size := by
  refine ⟨by rw [Guarded.expireOldest, hq], h.resolve (hq ▸ r.table.resolves_replay [p] ps) now, ?_⟩
  rw [PendingQueue.size, PendingQueue.size, hq]
  exact Nat.lt_succ_self _

private theorem advances_replayRound (h : Within rounds r) (now : Nat) :
    Advances rounds (fun s => s.replay now s.pending.entries []) r (replayRound now r) := by
  cases hq : r.pending.entries with
  | nil =>
    refine advances_done (by simp [replayRound, PendingQueue.isEmpty, hq, pure, Except.pure]) ?_
    simp only [hq]
    exact resolve_rest hq now
  | cons p ps =>
    obtain ⟨ho, hwithin, hsize⟩ := h.expireOldest hq now
    refine Or.inr ⟨_, by simp [replayRound, PendingQueue.isEmpty, hq, ho, pure, Except.pure], hwithin, hsize, ?_⟩
    simp only [hq]
    rfl

private theorem advances_clearRound (h : Within rounds r) (a : Address) (now : Nat) :
    Advances rounds (fun s => s.replay now (s.pending.entries.takeWhile (·.addr ≠ a))
      (s.pending.entries.dropWhile (·.addr ≠ a))) r (clearRound a now r) := by
  cases hq : r.pending.entries with
  | nil =>
    refine advances_done (by simp [clearRound, PendingQueue.front?, hq, pure, Except.pure]) ?_
    simp only [hq]
    exact resolve_rest hq now
  | cons p ps =>
    by_cases ha : p.addr = a
    · refine advances_done (by simp [clearRound, PendingQueue.front?, hq, ha, pure, Except.pure]) ?_
      simp only [hq]
      rw [List.takeWhile_cons_of_neg (by simp [ha]), List.dropWhile_cons_of_neg (by simp [ha])]
      exact resolve_rest hq now
    · obtain ⟨ho, hwithin, hsize⟩ := h.expireOldest hq now
      refine Or.inr ⟨_, by simp [clearRound, PendingQueue.front?, hq, ho, ha, pure, Except.pure], hwithin, hsize, ?_⟩
      simp only [hq]
      rw [List.takeWhile_cons_of_pos (by simp [ha]), List.dropWhile_cons_of_pos (by simp [ha])]
      rfl

/-! ### Calls -/

variable {event : KeyEvent}

private theorem Within.hold (h : Within rounds r) (hi : r.Idle event.addr) (hlt : r.pending.size < r.pending.capacity) :
    Within rounds (r.withQueue (r.pending.entries ++ [.ofEvent event])) :=
  ⟨h.coherent.hold hi.1 hi.2 hlt, h.capacity_lt⟩

private theorem hold_eq (h : Within rounds r) (hi : r.Idle event.addr) : hold rounds event r = .ok (r.hold event) := by
  by_cases hlt : r.pending.size < r.pending.capacity
  · have hplace : minus (r.pending.entries ++ [Press.ofEvent event]).length 1 = .ok r.pending.entries.length := by
      rw [List.length_append]
      exact if_pos (Nat.le_add_left 1 _)
    have hrecheck := recheck_eq (h.hold hi hlt) event.time
    rw [Recognizer.hold_of_lt hlt, ← hrecheck, hold, PendingQueue.push_of_lt hlt]
    show (minus (r.pending.entries ++ [Press.ofEvent event]).length 1 >>= _) = _
    rw [hplace]
    rfl
  by_cases ha : r.pending.Admits
  · obtain ⟨oldest, rest, hq, hpush⟩ := PendingQueue.push_of_not_lt hlt ha (.ofEvent event)
    have hheld : Within rounds (r.withQueue (rest ++ [.ofEvent event])) := by
      obtain ⟨hi', hlt'⟩ := h.coherent.room hq hi.1
      have hrest : (r.withQueue rest).Coherent := h.coherent.sublist (hq ▸ List.sublist_cons_self oldest rest)
      exact ⟨hrest.hold hi' hi.2 hlt', h.capacity_lt⟩
    rw [hold, Recognizer.hold, hpush]
    exact andThen_eq_ok (recheck_eq hheld event.time)
  · rw [Recognizer.hold_of_not_admits ha, hold, PendingQueue.push_of_not_admits ha]
    rfl

private theorem press_eq (h : Within rounds r) (event : KeyEvent) (layers : ActiveLayers) :
    press rounds event layers r = .ok (r.press event layers) := by
  cases hs : r.isSuppressed layers with
  | true =>
    have hall := loop_eq_ok (fun _ hs => advances_replayRound hs event.time) h h.size_lt
    rw [Recognizer.press_of_suppressed hs, press, if_pos hs, hall]
    rfl
  | false =>
    cases hp : r.table.isParticipant event.key with
    | false =>
      have hall := loop_eq_ok (fun _ hs => advances_resolveRound hs event.time) h h.size_lt
      rw [Recognizer.press_of_foreign hs hp, press, if_neg (by simp [hs]), if_pos (by simp [hp]), hall]
      rfl
    | true =>
      rw [press, if_neg (by simp [hs]), if_neg (by simp [hp])]
      by_cases hb : r.isPending event.addr = true ∨ r.isConsumed event.addr = true
      · rw [Recognizer.press_of_busy hs hp hb, if_pos (by simpa using hb)]
        rfl
      · rw [if_neg (by simpa using hb)]
        simp only [not_or, Bool.not_eq_true] at hb
        rw [Recognizer.press_of_idle hs hp hb.1 hb.2]
        exact hold_eq h hb

/-- Behind the presses that are cleared, the press at the address is taken out. -/
private theorem takeOut_eq {p : Press} {ps : List Press} (hq : r.pending.entries = p :: ps) (now : Nat) :
    takeOut p.addr now r = r.replay now [p] ps := by
  simp [takeOut, PendingQueue.removeAt, hq, Recognizer.replay, Recognizer.resolve, Recognizer.activeAfter]

/-- The last of the presses that go on goes on behind the others. -/
private theorem replay_concat (r : Recognizer) (now : Nat) (front : List Press) (p : Press) (queue : List Press) :
    r.replay now (front ++ [p]) queue =
      ((r.replay now front (p :: queue)).recognizer.replay now [p] queue).after
        (r.replay now front (p :: queue)).emissions := by
  simp [Recognizer.replay, Recognizer.resolve, Outcome.after]

private theorem after_after (earlier : List Emission) (o o' : Outcome) :
    o'.after (o.after earlier).emissions = (o'.after o.emissions).after earlier := by
  simp [Outcome.after]

private theorem releasePending_eq (h : Within rounds r) (hp : r.isPending event.addr = true) :
    releasePending rounds event r = .ok (r.releasePending event) := by
  obtain ⟨ahead, p, behind, hq, hpa, ha⟩ := Recognizer.exists_split_of_isPending hp
  have hsplit : r.pending.entries.takeWhile (·.addr ≠ event.addr) = ahead ∧
      r.pending.entries.dropWhile (·.addr ≠ event.addr) = p :: behind :=
    Recognizer.takeWhile_dropWhile_of_split hq hpa ha
  have hclear := loop_eq_ok (fun _ hs => advances_clearRound hs event.addr event.time) h h.size_lt
  rw [hsplit.1, hsplit.2] at hclear
  have hout := takeOut_eq (r := (r.replay event.time ahead (p :: behind)).recognizer) rfl event.time
  rw [hpa] at hout
  have hrest : Within rounds (r.replay event.time (ahead ++ [p]) behind).recognizer := by
    refine h.resolve ?_ event.time
    rw [hq, List.append_cons]
    exact r.table.resolves_replay (ahead ++ [p]) behind
  rw [replay_concat] at hrest
  -- the presses ahead, the press at the address, its release, and then the presses that are left
  have hpass := andThen_eq_ok (o := Recognizer.pass _ event) (recheck_eq hrest event.time)
  rw [Recognizer.releasePending_of_split hq hpa ha, replay_concat, after_after]
  refine bind_andThen_eq_ok hclear ?_
  rw [hout]
  exact andThen_eq_ok hpass

private theorem settleOnce_eq (h : Within rounds r) (now : Nat) : settleOnce rounds now r = .ok (r.settle now) := by
  rw [settleOnce, settle_eq h.coherent, Recognizer.settle, ChordTable.settleOnce]
  cases hs : r.table.settle? r.pending.entries with
  | none => rfl
  | some found =>
    obtain ⟨s, rest⟩ := found
    have hrest : Within rounds (r.resolve now ⟨[s], rest⟩).recognizer :=
      h.resolve ⟨by simpa [Resolved.presses] using ChordTable.presses_settle? hs,
        by simpa using ChordTable.spelled_settle? hs⟩ now
    show andThen _ _ = .ok (r.resolve now ((r.table.recheck rest).after [s]))
    rw [resolve_after]
    exact andThen_eq_ok (recheck_eq hrest now)

private theorem release_eq (h : Within rounds r) (event : KeyEvent) :
    release rounds event r = .ok (r.release event) := by
  cases hp : r.isPending event.addr with
  | false =>
    rw [Recognizer.release_of_not_pending hp, release, if_neg (by simp [hp])]
    rfl
  | true =>
    have hs : Within rounds (r.settle event.time).recognizer := h.resolve (r.table.resolves_settleOnce _) event.time
    rw [release, if_pos hp]
    cases hps : (r.settle event.time).recognizer.isPending event.addr with
    | false =>
      rw [Recognizer.release_of_settled hp hps]
      exact bind_andThen_eq_ok (settleOnce_eq h event.time) (if_neg (by simp [hps]))
    | true =>
      rw [Recognizer.release_of_unsettled hp hps]
      exact bind_andThen_eq_ok (settleOnce_eq h event.time) ((if_pos hps).trans (releasePending_eq hs hps))

/-- No call fails. -/
private theorem step_eq (h : Within rounds r) (call : Recognizer.Call) : step rounds r call = .ok (r.step call) := by
  cases call with
  | key event layers =>
    cases he : event.edge with
    | down =>
      rw [show r.step (.key event layers) = r.press event layers from Recognizer.key_of_down he layers, step, he]
      exact press_eq h event layers
    | up =>
      rw [show r.step (.key event layers) = r.release event from Recognizer.key_of_up he layers, step, he]
      exact release_eq h event
  | tick now =>
    show (if r.timeout = 0 then _ else _) = Except.ok (r.tick now)
    by_cases hz : r.timeout = 0
    · rw [if_pos hz, Recognizer.tick, if_pos hz]
      rfl
    · rw [if_neg hz, Recognizer.tick_of_ne_zero hz]
      exact loop_eq_ok (fun _ hs => advances_expireRound hs now) h h.size_lt
  | flush now =>
    have hall := loop_eq_ok (fun _ hs => advances_resolveRound hs now) h h.size_lt
    show (loop (resolveRound now) rounds r >>= _) = Except.ok (r.flush now)
    rw [hall, Recognizer.flush_eq]
    rfl
  | reset => rfl

private theorem Within.step (h : Within rounds r) (call : Recognizer.Call) :
    Within rounds (r.step call).recognizer := by
  constructor
  · rw [← Recognizer.run_singleton]
    exact h.coherent.run [call]
  · rw [(r.sameSettings_step call).capacity]
    exact h.capacity_lt

private theorem run_eq (h : Within rounds r) (calls : List Recognizer.Call) :
    run rounds r calls = .ok (r.run calls) := by
  induction calls generalizing r with
  | nil => rfl
  | cons call calls ih =>
    exact bind_andThen_eq_ok (step_eq h call) (ih (h.step call))

/-- A recognizer never fails: in no run does a loop go on for more rounds than there is room in the queue, or any step
ask for more than there is.  A chord that is found is one of the table, and takes two presses or more from the queue,
so that no round finds a chord and leaves the queue as it was. -/
theorem run_never_fails {c : Config} (hc : Recognizer.ofConfig c = .ok r) (calls : List Recognizer.Call)
    (hr : c.capacity.toNat < rounds) :
    run rounds r calls = .ok (r.run calls) ∧
      (∀ s now o, settle now s = .ok (some o) → Shortens s o) ∧
      ∀ s e now o, classify s.table s.pending.keys = .ok (.complete e) →
        activate e.id s.pending.keys.length now s = .ok o → Shortens s o := by
  have hwithin : Within rounds r := by
    refine ⟨Recognizer.coherent_of_fresh (Recognizer.fresh_ofConfig hc), ?_⟩
    rw [show r.pending.capacity = c.capacity.toNat from Recognizer.capacity_run hc []]
    exact hr
  exact ⟨run_eq hwithin calls, fun s now o => settle_shortens, fun s e now o => complete_shortens⟩

/-- Four rounds are enough for a queue of three presses, and two presses that are settled leave it empty. -/
theorem run_never_fails_nestedRoll :
    ∃ r, Recognizer.ofConfig .nested = .ok r ∧
      run 4 r Recognizer.nestedRoll = .ok (r.run Recognizer.nestedRoll) ∧
      ∃ o, settle 3 (r.withQueue [⟨⟨0, 1⟩, ⟨4⟩, 0⟩, ⟨⟨0, 2⟩, ⟨22⟩, 1⟩]) = .ok (some o) ∧
        Shortens (r.withQueue [⟨⟨0, 1⟩, ⟨4⟩, 0⟩, ⟨⟨0, 2⟩, ⟨22⟩, 1⟩]) o := by
  refine ⟨_, rfl, ?_⟩
  have hrounds : Config.nested.capacity.toNat < 4 := by decide
  obtain ⟨hrun, hsettle, -⟩ := run_never_fails rfl Recognizer.nestedRoll hrounds
  exact ⟨hrun, _, rfl, hsettle _ 3 _ rfl⟩

end Guarded

end Chording
