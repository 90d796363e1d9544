import Chording.Key.Event
import Mathlib.Data.List.Chain

/-!
# Streams of key events

What a receiver can rely on: at every address presses and releases alternate, beginning with a press (`Clean`), and
a release is of the key whose press it ends (`Keyed`).  Both are told event by event by the key that is down at an
address (`heldAt`): `clean_concat`, `keyed_concat`.
-/

namespace Chording

/-- The key that is down after the event. -/
def KeyEvent.held? (e : KeyEvent) : Option KeyCode :=
  match e.edge with
  | .down => some e.key
  | .up => none

/-- Presses and releases in turn, the first a press. -/
def Alternating (events : List KeyEvent) : Prop :=
  (∀ e ∈ events.head?, e.edge = .down) ∧ events.IsChain fun e e' => e.edge ≠ e'.edge

def eventsAt (events : List KeyEvent) (a : Address) : List KeyEvent :=
  events.filter (·.addr = a)

/-- At every address presses and releases alternate, beginning with a press. -/
def Clean (events : List KeyEvent) : Prop :=
  ∀ a, Alternating (eventsAt events a)

/-- Every release is of the same key as the event before it at its address. -/
def Keyed (events : List KeyEvent) : Prop :=
  ∀ a, (eventsAt events a).IsChain fun e e' => e'.edge = .up → e.key = e'.key

/-- The key that is down at an address, if the last event there was a press. -/
def heldAt (events : List KeyEvent) (a : Address) : Option KeyCode :=
  (eventsAt events a).getLast?.bind KeyEvent.held?

/-- What holds of no events and at every address that occurs holds at every address. -/
private theorem forall_eventsAt {P : List KeyEvent → Prop} (hnil : P []) {events : List KeyEvent} :
    (∀ a, P (eventsAt events a)) ↔ ∀ e ∈ events, P (eventsAt events e.addr) := by
  refine ⟨fun h e _ => h e.addr, fun h a => ?_⟩
  by_cases ha : ∃ e ∈ events, e.addr = a
  · obtain ⟨e, he, rfl⟩ := ha
    exact h e he
  · have hempty : eventsAt events a = [] := by
      unfold eventsAt
      rw [List.filter_eq_nil_iff]
      intro e he hea
      exact ha ⟨e, he, by simpa using hea⟩
    rw [hempty]
    exact hnil

private theorem alternating_nil : Alternating [] := ⟨by simp, .nil⟩

theorem clean_nil : Clean [] := fun _ => alternating_nil

instance (events : List KeyEvent) : Decidable (Alternating events) :=
  inferInstanceAs (Decidable (_ ∧ _))

instance (events : List KeyEvent) : Decidable (Clean events) :=
  decidable_of_iff' _ (forall_eventsAt alternating_nil)

instance (events : List KeyEvent) : Decidable (Keyed events) :=
  decidable_of_iff' _ (forall_eventsAt .nil)

/-- Every key is up. -/
theorem forall_heldAt_eq_none {events : List KeyEvent} :
    (∀ a, heldAt events a = none) ↔ ∀ e ∈ events, heldAt events e.addr = none :=
  forall_eventsAt (P := fun l => l.getLast?.bind KeyEvent.held? = none) rfl

/-! ### One event more -/

private theorem eventsAt_append (events events' : List KeyEvent) (a : Address) :
    eventsAt (events ++ events') a = eventsAt events a ++ eventsAt events' a :=
  List.filter_append ..

private theorem eventsAt_singleton (e : KeyEvent) (a : Address) : eventsAt [e] a = if e.addr = a then [e] else [] := by
  by_cases h : e.addr = a <;> simp [eventsAt, h]

theorem heldAt_concat (events : List KeyEvent) (e : KeyEvent) (a : Address) :
    heldAt (events ++ [e]) a = if e.addr = a then e.held? else heldAt events a := by
  unfold heldAt
  rw [eventsAt_append, eventsAt_singleton]
  split
  · rw [List.getLast?_concat]
    rfl
  · rw [List.append_nil]

theorem heldAt_concat_self (events : List KeyEvent) (e : KeyEvent) : heldAt (events ++ [e]) e.addr = e.held? := by
  rw [heldAt_concat, if_pos rfl]

theorem heldAt_concat_of_ne {events : List KeyEvent} {e : KeyEvent} {a : Address} (h : e.addr ≠ a) :
    heldAt (events ++ [e]) a = heldAt events a := by
  rw [heldAt_concat, if_neg h]

private theorem alternating_concat (events : List KeyEvent) (e : KeyEvent) :
    Alternating (events ++ [e]) ↔
      Alternating events ∧ (e.edge = .down ↔ events.getLast?.bind KeyEvent.held? = none) := by
  rcases List.eq_nil_or_concat' events with rfl | ⟨front, x, rfl⟩
  · simp [Alternating]
  · have hx : x.held? = none ↔ x.edge = .up := by
      unfold KeyEvent.held?
      cases x.edge <;> simp
    have hedge : (e.edge = .down ↔ x.edge = .up) ↔ x.edge ≠ e.edge := by
      cases x.edge <;> cases e.edge <;> simp
    have hhead : (front ++ [x] ++ [e]).head? = (front ++ [x]).head? := by
      cases front <;> rfl
    unfold Alternating
    rw [List.isChain_append, List.getLast?_concat, Option.bind_some, hx, hedge, hhead]
    simp [and_assoc]

theorem clean_concat {events : List KeyEvent} {e : KeyEvent} :
    Clean (events ++ [e]) ↔ Clean events ∧ (e.edge = .down ↔ heldAt events e.addr = none) := by
  constructor
  · intro h
    refine ⟨fun a => ?_, ?_⟩
    · have ha := h a
      rw [eventsAt_append, eventsAt_singleton] at ha
      split at ha
      · exact ((alternating_concat _ e).1 ha).1
      · rwa [List.append_nil] at ha
    · have ha := h e.addr
      rw [eventsAt_append, eventsAt_singleton, if_pos rfl] at ha
      exact ((alternating_concat _ e).1 ha).2
  · rintro ⟨h, he⟩ a
    rw [eventsAt_append, eventsAt_singleton]
    split
    · rename_i ha
      subst ha
      exact (alternating_concat _ e).2 ⟨h _, he⟩
    · rw [List.append_nil]
      exact h a

theorem keyed_concat {events : List KeyEvent} {e : KeyEvent} (hc : Clean (events ++ [e])) :
    Keyed (events ++ [e]) ↔ Keyed events ∧ (e.edge = .up → heldAt events e.addr = some e.key) := by
  have hlast : (∀ x ∈ (eventsAt events e.addr).getLast?, e.edge = .up → x.key = e.key) ↔
      (e.edge = .up → heldAt events e.addr = some e.key) := by
    have he := (clean_concat.1 hc).2
    unfold heldAt at he ⊢
    cases hx : (eventsAt events e.addr).getLast? with
    | none =>
      have hd : e.edge = .down := he.2 (by rw [hx]; rfl)
      simp [hd]
    | some x =>
      rw [hx, Option.bind_some] at he
      unfold KeyEvent.held? at he ⊢
      cases hxe : x.edge <;> simp_all
  constructor
  · intro h
    refine ⟨fun a => ?_, hlast.1 fun x hx => ?_⟩
    · have ha := h a
      rw [eventsAt_append] at ha
      exact ha.left_of_append
    · have ha := h e.addr
      rw [eventsAt_append, eventsAt_singleton, if_pos rfl, List.isChain_append] at ha
      exact ha.2.2 x hx e rfl
  · rintro ⟨h, he⟩ a
    rw [eventsAt_append, eventsAt_singleton]
    split
    · rename_i ha
      subst ha
      refine List.isChain_append.2 ⟨h _, List.isChain_singleton e, fun x hx y hy => ?_⟩
      obtain rfl := Option.mem_some.1 hy
      exact hlast.2 he x hx
    · rw [List.append_nil]
      exact h a

/-! ### Earlier parts of a stream -/

theorem Clean.of_append {events events' : List KeyEvent} (h : Clean (events ++ events')) : Clean events := by
  intro a
  obtain ⟨hhead, hchain⟩ := h a
  rw [eventsAt_append] at hhead hchain
  refine ⟨fun e he => hhead e ?_, hchain.left_of_append⟩
  rw [List.head?_append, Option.mem_def.1 he]
  rfl

theorem Keyed.of_append {events events' : List KeyEvent} (h : Keyed (events ++ events')) : Keyed events := by
  intro a
  have ha := h a
  rw [eventsAt_append] at ha
  exact ha.left_of_append

/-! ### Several releases -/

/-- The addresses at which keys are released. -/
def releasedIn (events : List KeyEvent) : List Address :=
  (events.filter (·.edge = .up)).map (·.addr)

@[simp]
theorem releasedIn_append (events events' : List KeyEvent) :
    releasedIn (events ++ events') = releasedIn events ++ releasedIn events' := by
  simp [releasedIn]

theorem mem_releasedIn {events : List KeyEvent} {a : Address} :
    a ∈ releasedIn events ↔ ∃ e ∈ events, e.edge = .up ∧ e.addr = a := by
  simp [releasedIn, and_assoc]

/-- Where a key stays down nothing happens. -/
theorem addr_ne_of_not_released {events events' : List KeyEvent} {a : Address} (hclean : Clean (events ++ events'))
    (hdown : heldAt events a ≠ none) (ha : a ∉ releasedIn events') : ∀ e ∈ events', e.addr ≠ a := by
  induction events' generalizing events with
  | nil => exact fun e he => absurd he List.not_mem_nil
  | cons e events' ih =>
    rw [List.append_cons] at hclean
    have hne : e.addr ≠ a := by
      rintro rfl
      cases he : e.edge with
      | down => exact hdown ((clean_concat.1 hclean.of_append).2.1 he)
      | up => exact ha (mem_releasedIn.2 ⟨e, List.mem_cons_self, he, rfl⟩)
    refine List.forall_mem_cons.2 ⟨hne, ih hclean ?_ fun hm => ha ?_⟩
    · rwa [heldAt_concat_of_ne hne]
    · rw [← List.singleton_append, releasedIn_append]
      exact List.mem_append_right _ hm

theorem heldAt_append_releases {events releases : List KeyEvent} (hup : ∀ e ∈ releases, e.edge = .up) (a : Address) :
    heldAt (events ++ releases) a = if a ∈ releases.map (·.addr) then none else heldAt events a := by
  induction releases generalizing events with
  | nil => simp
  | cons e releases ih =>
    obtain ⟨he, hup⟩ := List.forall_mem_cons.1 hup
    have hnone : e.held? = none := by
      unfold KeyEvent.held?
      rw [he]
    rw [List.append_cons, ih hup, heldAt_concat, hnone]
    by_cases ha : e.addr = a
    · simp [ha]
    · simp [ha, Ne.symm ha]

/-- Keys that are down may be released, each once. -/
theorem clean_append_releases {events releases : List KeyEvent} (hc : Clean events)
    (hup : ∀ e ∈ releases, e.edge = .up) (hheld : ∀ e ∈ releases, heldAt events e.addr = some e.key)
    (hn : (releases.map (·.addr)).Nodup) :
    Clean (events ++ releases) ∧ (Keyed events → Keyed (events ++ releases)) := by
  induction releases generalizing events with
  | nil => simpa using hc
  | cons e releases ih =>
    obtain ⟨he, hup⟩ := List.forall_mem_cons.1 hup
    obtain ⟨hk, hheld⟩ := List.forall_mem_cons.1 hheld
    rw [List.map_cons, List.nodup_cons] at hn
    have hce : Clean (events ++ [e]) := clean_concat.2 ⟨hc, by simp [he, hk]⟩
    -- the other releases are at other addresses, whose keys are still down
    have hrest : ∀ e' ∈ releases, heldAt (events ++ [e]) e'.addr = some e'.key := by
      intro e' he'
      rw [heldAt_concat_of_ne fun heq => hn.1 (heq ▸ List.mem_map_of_mem he')]
      exact hheld e' he'
    obtain ⟨h1, h2⟩ := ih hce hup hrest hn.2
    rw [← List.append_cons] at h1 h2
    exact ⟨h1, fun hkeyed => h2 ((keyed_concat hce).2 ⟨hkeyed, fun _ => hk⟩)⟩

end Chording
