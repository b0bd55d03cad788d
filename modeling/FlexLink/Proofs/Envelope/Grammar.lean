import FlexLink.Proofs.Envelope.RoundTrip
import FlexLink.Proofs.Wire.Loss

/-! # Which packets decode

Packets decode to the text of their one complete run.  Runs in front of it and behind it may be
begun and never ended; anything else that stands in the list refuses all of it.  `Carries` is the
grammar of the lists that have a text and `Flawed` says what is wrong with every other list. -/
set_option autoImplicit false
namespace FlexLink

namespace Packet

/-- Where a packet of text stands in its run. -/
def place? (p : Packet) : Option FlexForm :=
  match FlexPacket.ofPacket p with
  | .error _ => none
  | .ok flex => if flex.isText then some flex.form else none

/-- A run without its end: a start and any number of continuations. -/
inductive Begun : List Packet → Prop
  | start {p : Packet} (place : p.place? = some .start) : Begun [p]
  | middle {run : List Packet} {p : Packet} (begun : Begun run) (place : p.place? = some .middle) :
      Begun (run ++ [p])

/-- A run with its end, or the one packet that is a run by itself. -/
inductive Complete : List Packet → Prop
  | whole {p : Packet} (place : p.place? = some .whole) : Complete [p]
  | last {run : List Packet} {p : Packet} (begun : Begun run) (place : p.place? = some .last) :
      Complete (run ++ [p])

/-- One complete run among runs that were given up, and the text of it. -/
def Carries (packets : List Packet) (text : List UInt8) : Prop :=
  ∃ (before : List (List Packet)) (run : List Packet) (after : List (List Packet)),
    packets = before.flatten ++ run ++ after.flatten ∧ (∀ r ∈ before, Begun r) ∧ Complete run ∧
      (∀ r ∈ after, Begun r) ∧ text = run.flatMap carried

/-- What keeps packets from carrying a text. -/
inductive Flawed : List Packet → Prop
  | notText {packets : List Packet} {p : Packet} (member : p ∈ packets) (place : p.place? = none) :
      Flawed packets
  /-- A continuation or an end that follows no packet of an open run. -/
  | orphan {before after : List Packet} {p : Packet}
      (place : p.place? = some .middle ∨ p.place? = some .last)
      (alone : ∀ q ∈ before.getLast?, q.place? ≠ some .start ∧ q.place? ≠ some .middle) :
      Flawed (before ++ p :: after)
  | several (before between after : List Packet) {first second : List Packet}
      (one : Complete first) (other : Complete second) :
      Flawed (before ++ first ++ between ++ second ++ after)
  | incomplete {packets : List Packet}
      (none : ∀ before run after, packets = before ++ run ++ after → ¬ Complete run) :
      Flawed packets

end Packet

/-! ## One packet -/

namespace Packet

variable {p : Packet} {form : FlexForm}

theorem push_of_place (place : p.place? = some form) (a : Assembler) :
    a.push p = a.pushText form p.carried := by
  rw [place?] at place
  rw [Assembler.push, carried]
  cases read : FlexPacket.ofPacket p with
  | error why =>
      rw [read] at place
      cases place
  | ok flex =>
      rw [read] at place
      obtain ⟨text, same⟩ := Option.ite_none_right_eq_some.mp place
      simp only [text, if_true, Option.some.inj same]

theorem push_of_place_none (place : p.place? = none) (a : Assembler) :
    ∃ why, a.push p = (a, some (.error why)) := by
  rw [place?] at place
  rw [Assembler.push]
  cases read : FlexPacket.ofPacket p with
  | error why => exact ⟨_, rfl⟩
  | ok flex =>
      rw [read] at place
      have other : ¬ flex.isText = true := fun text => by
        simp only [text, if_true] at place
        cases place
      simp only [other]
      exact ⟨_, rfl⟩

inductive Passes (p : Packet) (a : Assembler) :
    Option (List UInt8) → Assembler → Option (List UInt8) → Prop
  | start {found : Option (List UInt8)} (place : p.place? = some .start) :
      Passes p a found { a.restart with opened := some [p.carried] } found
  | middle {found : Option (List UInt8)} {done : List (List UInt8)}
      (place : p.place? = some .middle) (opened : a.opened = some done) :
      Passes p a found { a with opened := some (p.carried :: done) } found
  | whole (place : p.place? = some .whole) : Passes p a none a.restart (some p.carried)
  | last {done : List (List UInt8)} (place : p.place? = some .last) (opened : a.opened = some done) :
      Passes p a none { a with opened := none } (some (p.carried :: done).reverse.flatten)

inductive Refused (p : Packet) (a : Assembler) : Option (List UInt8) → Prop
  | notText {found : Option (List UInt8)} (place : p.place? = none) : Refused p a found
  | orphan {found : Option (List UInt8)} (place : p.place? = some .middle ∨ p.place? = some .last)
      (opened : a.opened = none) : Refused p a found
  | secondWhole {text : List UInt8} (place : p.place? = some .whole) : Refused p a (some text)
  | secondLast {text : List UInt8} {done : List (List UInt8)} (place : p.place? = some .last)
      (opened : a.opened = some done) : Refused p a (some text)

variable {a b : Assembler} {found next : Option (List UInt8)}

theorem Passes.soleText (passes : p.Passes a found b next) (rest : List Packet) :
    soleText a found (p :: rest) = soleText b next rest := by
  cases passes with
  | start place => rw [FlexLink.soleText, push_of_place place]; rfl
  | middle place opened =>
      rw [FlexLink.soleText, push_of_place place, Assembler.pushText, opened]
  | whole place => rw [FlexLink.soleText, push_of_place place]; rfl
  | last place opened =>
      rw [FlexLink.soleText, push_of_place place, Assembler.pushText, opened]
      rfl

theorem soleText_of_error (failed : ∃ why, a.push p = (a, some (.error why)))
    (found : Option (List UInt8)) (rest : List Packet) :
    ∃ fault, soleText a found (p :: rest) = .error fault := by
  obtain ⟨why, failed⟩ := failed
  rw [soleText, failed]
  cases found with
  | none => exact ⟨.run why, rfl⟩
  | some text => exact ⟨.severalMessages, rfl⟩

theorem Refused.soleText (refused : p.Refused a found) (rest : List Packet) :
    ∃ fault, soleText a found (p :: rest) = .error fault := by
  cases refused with
  | notText place => exact soleText_of_error (push_of_place_none place a) found rest
  | orphan place opened =>
      rcases place with middle | last
      · refine soleText_of_error ⟨.continueWithoutStart, ?_⟩ found rest
        rw [push_of_place middle, Assembler.pushText, opened]
      · refine soleText_of_error ⟨.endWithoutStart, ?_⟩ found rest
        rw [push_of_place last, Assembler.pushText, opened]
  | secondWhole place =>
      rw [FlexLink.soleText, push_of_place place]
      exact ⟨.severalMessages, rfl⟩
  | secondLast place opened =>
      rw [FlexLink.soleText, push_of_place place, Assembler.pushText, opened]
      exact ⟨.severalMessages, rfl⟩

theorem passes_or_refused (p : Packet) (a : Assembler) (found : Option (List UInt8)) :
    (∃ b next, p.Passes a found b next) ∨ p.Refused a found := by
  cases place : p.place? with
  | none => exact .inr (.notText place)
  | some form =>
      cases form with
      | start => exact .inl ⟨_, _, .start place⟩
      | whole =>
          cases found with
          | none => exact .inl ⟨_, _, .whole place⟩
          | some text => exact .inr (.secondWhole place)
      | middle =>
          cases opened : a.opened with
          | none => exact .inr (.orphan (.inl place) opened)
          | some done => exact .inl ⟨_, _, .middle place opened⟩
      | last =>
          cases opened : a.opened with
          | none => exact .inr (.orphan (.inr place) opened)
          | some done =>
              cases found with
              | none => exact .inl ⟨_, _, .last place opened⟩
              | some text => exact .inr (.secondLast place opened)

/-! ## Runs -/

variable {packets run rest : List Packet} {runs before after : List (List Packet)} {text : List UInt8}

def held (run : List Packet) : List (List UInt8) := (run.map carried).reverse

theorem held_concat (run : List Packet) (p : Packet) : held (run ++ [p]) = p.carried :: held run := by
  rw [held, List.map_append, List.reverse_append]
  rfl

theorem flatten_held (run : List Packet) : (held run).reverse.flatten = run.flatMap carried := by
  rw [held, List.reverse_reverse, List.flatMap_def]

theorem Begun.soleText (begun : Begun run) (a : Assembler) (found : Option (List UInt8))
    (rest : List Packet) :
    soleText a found (run ++ rest)
      = soleText { a.restart with opened := some (held run) } found rest := by
  -- A run grows at its end, so what stands behind it is generalized.
  induction begun generalizing rest with
  | start place => exact (Passes.start place).soleText rest
  | middle begun place ih =>
      rw [List.append_assoc, ih, held_concat]
      exact (Passes.middle place rfl).soleText rest

theorem soleText_begun (begun : ∀ r ∈ runs, Begun r) (a : Assembler) (found : Option (List UInt8))
    (rest : List Packet) : ∃ b, soleText a found (runs.flatten ++ rest) = soleText b found rest := by
  induction runs generalizing a with
  | nil => exact ⟨a, rfl⟩
  | cons run runs ih =>
      obtain ⟨here, others⟩ := List.forall_mem_cons.mp begun
      obtain ⟨b, later⟩ := ih others { a.restart with opened := some (held run) }
      exact ⟨b, by rw [List.flatten_cons, List.append_assoc, here.soleText, later]⟩

theorem Complete.soleText (complete : Complete run) (a : Assembler) (rest : List Packet) :
    ∃ b, soleText a none (run ++ rest) = soleText b (some (run.flatMap carried)) rest := by
  cases complete with
  | @whole p place =>
      refine ⟨a.restart, ?_⟩
      rw [List.flatMap_singleton]
      exact (Passes.whole place).soleText rest
  | @last run p begun place =>
      refine ⟨{ a.restart with opened := none }, ?_⟩
      rw [List.append_assoc, begun.soleText, ← flatten_held, held_concat]
      exact (Passes.last place rfl).soleText rest

theorem Carries.soleText (carries : Carries packets text) (a : Assembler) :
    soleText a none packets = .ok text := by
  obtain ⟨before, run, after, rfl, early, complete, late, rfl⟩ := carries
  obtain ⟨b, past⟩ := soleText_begun early a none (run ++ after.flatten)
  obtain ⟨c, completed⟩ := complete.soleText b after.flatten
  obtain ⟨d, ended⟩ := soleText_begun late c (some (run.flatMap carried)) []
  rw [List.append_nil] at ended
  rw [List.append_assoc, past, completed, ended]
  rfl

/-! ## What has been seen -/

/-- Packets of runs that have no end, and the chunks of the last of these runs. -/
def Unended (packets : List Packet) (opened : Option (List (List UInt8))) : Prop :=
  ∃ runs, packets = List.flatten runs ∧ (∀ r ∈ runs, Begun r) ∧ opened = runs.getLast?.map held

inductive Seen : List Packet → Option (List (List UInt8)) → Option (List UInt8) → Prop
  | unended {packets : List Packet} {opened : Option (List (List UInt8))}
      (unended : Unended packets opened) : Seen packets opened none
  | complete {before : List (List Packet)} {run after : List Packet}
      {opened : Option (List (List UInt8))} (begun : ∀ r ∈ before, Begun r) (complete : Complete run)
      (unended : Unended after opened) :
      Seen (before.flatten ++ run ++ after) opened (some (run.flatMap carried))

namespace Unended

variable {opened : Option (List (List UInt8))} {done : List (List UInt8)}

theorem nil : Unended [] none := ⟨[], rfl, List.forall_mem_nil _, rfl⟩

theorem start (unended : Unended packets opened) (place : p.place? = some .start) :
    Unended (packets ++ [p]) (some [p.carried]) := by
  obtain ⟨runs, rfl, begun, -⟩ := unended
  refine ⟨runs ++ [[p]], ?_, ?_, ?_⟩
  · rw [List.flatten_append, List.flatten_singleton]
  · exact List.forall_mem_append.mpr ⟨begun, List.forall_mem_singleton.mpr (.start place)⟩
  · rw [List.getLast?_concat]
    rfl

/-- The open run behind those that were given up. -/
theorem split (unended : Unended packets (some done)) :
    ∃ runs run, packets = List.flatten runs ++ run ∧ (∀ r ∈ runs, Begun r) ∧ Begun run ∧
      done = held run := by
  obtain ⟨runs, rfl, begun, same⟩ := unended
  obtain ⟨run, final, rfl⟩ := Option.map_eq_some_iff.mp same.symm
  obtain ⟨runs, rfl⟩ := List.getLast?_eq_some_iff.mp final
  obtain ⟨early, late⟩ := List.forall_mem_append.mp begun
  refine ⟨runs, run, ?_, early, List.forall_mem_singleton.mp late, rfl⟩
  rw [List.flatten_append, List.flatten_singleton]

theorem middle (unended : Unended packets (some done)) (place : p.place? = some .middle) :
    Unended (packets ++ [p]) (some (p.carried :: done)) := by
  obtain ⟨runs, run, rfl, early, begun, rfl⟩ := unended.split
  refine ⟨runs ++ [run ++ [p]], ?_, ?_, ?_⟩
  · rw [List.flatten_append, List.flatten_singleton, List.append_assoc]
  · exact List.forall_mem_append.mpr ⟨early, List.forall_mem_singleton.mpr (begun.middle place)⟩
  · rw [List.getLast?_concat, ← held_concat]
    rfl

theorem eq_nil (unended : Unended packets none) : packets = [] := by
  obtain ⟨runs, rfl, -, same⟩ := unended
  rw [List.getLast?_eq_none_iff.mp (Option.map_eq_none_iff.mp same.symm)]
  rfl

end Unended

theorem Passes.seen (passes : p.Passes a found b next) (seen : Seen packets a.opened found) :
    Seen (packets ++ [p]) b.opened next := by
  cases passes with
  | start place =>
      cases seen with
      | unended unended => exact .unended (unended.start place)
      | complete begun complete unended =>
          rw [List.append_assoc]
          exact .complete begun complete (unended.start place)
  | middle place opened =>
      rw [opened] at seen
      cases seen with
      | unended unended => exact .unended (unended.middle place)
      | complete begun complete unended =>
          rw [List.append_assoc]
          exact .complete begun complete (unended.middle place)
  | whole place =>
      rw [Assembler.restart_opened]
      cases seen with
      | unended unended =>
          obtain ⟨runs, rfl, begun, -⟩ := unended
          have found := Seen.complete begun (.whole place) .nil
          rwa [List.append_nil, List.flatMap_singleton] at found
  | last place opened =>
      rw [opened] at seen
      cases seen with
      | unended unended =>
          obtain ⟨runs, run, rfl, early, begun, rfl⟩ := unended.split
          have found := Seen.complete early (.last begun place) .nil
          rwa [List.append_nil, ← List.append_assoc, ← flatten_held, held_concat] at found

theorem Begun.getLast? (begun : Begun run) :
    ∃ q ∈ run.getLast?, q.place? = some .start ∨ q.place? = some .middle := by
  cases begun with
  | @start p place => exact ⟨p, rfl, .inl place⟩
  | @middle run p begun place => exact ⟨p, List.getLast?_concat, .inr place⟩

theorem Complete.getLast? (complete : Complete run) :
    ∃ q ∈ run.getLast?, q.place? = some .whole ∨ q.place? = some .last := by
  cases complete with
  | @whole p place => exact ⟨p, rfl, .inl place⟩
  | @last run p begun place => exact ⟨p, List.getLast?_concat, .inr place⟩

theorem getLast?_append_of_mem {q : Packet} {front : List Packet} (final : q ∈ run.getLast?) :
    q ∈ (front ++ run).getLast? := by
  rw [List.getLast?_append, Option.mem_def.mp final]
  rfl

theorem Unended.getLast? {done : List (List UInt8)} (unended : Unended packets (some done)) :
    ∃ q ∈ packets.getLast?, q.place? = some .start ∨ q.place? = some .middle := by
  obtain ⟨runs, run, rfl, -, begun, -⟩ := unended.split
  obtain ⟨q, final, place⟩ := begun.getLast?
  exact ⟨q, getLast?_append_of_mem final, place⟩

/-- A run is open behind a start or a continuation only. -/
theorem Seen.getLast?_of_opened {done : List (List UInt8)} (seen : Seen packets (some done) found) :
    ∃ q ∈ packets.getLast?, q.place? = some .start ∨ q.place? = some .middle := by
  cases seen with
  | unended unended => exact unended.getLast?
  | complete begun complete unended =>
      obtain ⟨q, final, place⟩ := unended.getLast?
      exact ⟨q, getLast?_append_of_mem final, place⟩

theorem Seen.opened_eq_none {opened : Option (List (List UInt8))} (seen : Seen packets opened found)
    (alone : ∀ q ∈ packets.getLast?, q.place? ≠ some .start ∧ q.place? ≠ some .middle) :
    opened = none := by
  cases opened with
  | none => rfl
  | some done =>
      obtain ⟨q, final, start | middle⟩ := seen.getLast?_of_opened
      · exact absurd start (alone q final).1
      · exact absurd middle (alone q final).2

theorem Seen.alone (seen : Seen packets none found) :
    ∀ q ∈ packets.getLast?, q.place? ≠ some .start ∧ q.place? ≠ some .middle := by
  cases seen with
  | unended unended =>
      rw [unended.eq_nil]
      intro q none
      cases none
  | complete begun complete unended =>
      rw [unended.eq_nil, List.append_nil]
      obtain ⟨q, final, place⟩ := complete.getLast?
      intro other same
      cases Option.mem_unique same (getLast?_append_of_mem final)
      rcases place with whole | last
      · rw [whole]
        decide
      · rw [last]
        decide

theorem Refused.flawed (refused : p.Refused a found) (seen : Seen packets a.opened found)
    (rest : List Packet) : Flawed (packets ++ p :: rest) := by
  cases refused with
  | notText place => exact .notText (List.mem_append_right _ List.mem_cons_self) place
  | orphan place opened =>
      rw [opened] at seen
      exact .orphan place seen.alone
  | secondWhole place =>
      cases seen with
      | @complete before run after _ begun complete unended =>
          have two := Flawed.several before.flatten after rest complete (.whole place)
          rwa [List.append_assoc _ [p]] at two
  | secondLast place opened =>
      rw [opened] at seen
      cases seen with
      | @complete before run _ _ begun complete unended =>
          obtain ⟨runs, late, rfl, -, started, -⟩ := unended.split
          have two := Flawed.several before.flatten runs.flatten rest complete (.last started place)
          simp only [List.append_assoc, List.singleton_append] at two ⊢
          exact two

/-- Packets in front of others are seen, or the list is flawed and refused. -/
theorem Seen.proceeds (seen : Seen packets a.opened found) (later rest : List Packet) :
    (∃ b next, Seen (packets ++ later) b.opened next ∧
        soleText a found (later ++ rest) = soleText b next rest) ∨
      Flawed (packets ++ (later ++ rest)) ∧
        ∃ fault, soleText a found (later ++ rest) = .error fault := by
  -- Packets that pass move over to those that are seen; the first that is refused decides.
  induction later generalizing packets a found with
  | nil =>
      rw [List.append_nil]
      exact .inl ⟨a, found, seen, rfl⟩
  | cons p later ih =>
      rcases passes_or_refused p a found with ⟨b, next, passes⟩ | refused
      · have here := passes.soleText (later ++ rest)
        have went := ih (passes.seen seen)
        simp only [List.append_assoc, List.singleton_append] at went
        rw [List.cons_append, here]
        exact went
      · exact .inr ⟨refused.flawed seen _, refused.soleText _⟩

/-! ## Runs that are complete -/

def closes (p : Packet) : Bool := p.place? == some .whole || p.place? == some .last

theorem closes_of_place (place : p.place? = some form) :
    p.closes = (form == .whole || form == .last) := by
  rw [closes, place]
  cases form <;> rfl

theorem Begun.countP_closes (begun : Begun run) : run.countP closes = 0 := by
  induction begun with
  | start place => rw [List.countP_singleton, closes_of_place place]; rfl
  | middle begun place ih =>
      rw [List.countP_append, ih, List.countP_singleton, closes_of_place place]
      rfl

theorem countP_closes_flatten (begun : ∀ r ∈ runs, Begun r) : runs.flatten.countP closes = 0 := by
  induction runs with
  | nil => rfl
  | cons run runs ih =>
      obtain ⟨here, others⟩ := List.forall_mem_cons.mp begun
      rw [List.flatten_cons, List.countP_append, here.countP_closes, ih others]

theorem Complete.countP_closes (complete : Complete run) : run.countP closes = 1 := by
  cases complete with
  | whole place => rw [List.countP_singleton, closes_of_place place]; rfl
  | last begun place =>
      rw [List.countP_append, begun.countP_closes, List.countP_singleton, closes_of_place place]
      rfl

theorem Carries.countP_closes (carries : Carries packets text) : packets.countP closes = 1 := by
  obtain ⟨before, run, after, rfl, early, complete, late, -⟩ := carries
  rw [List.countP_append, List.countP_append, countP_closes_flatten early, complete.countP_closes,
    countP_closes_flatten late]

theorem Unended.countP_closes {opened : Option (List (List UInt8))} (unended : Unended packets opened) :
    packets.countP closes = 0 := by
  obtain ⟨runs, rfl, begun, -⟩ := unended
  exact countP_closes_flatten begun

theorem seen_nil : Seen [] ({} : Assembler).opened none := .unended .nil

theorem carries_or_flawed (packets : List Packet) :
    (∃ text, Carries packets text) ∨
      Flawed packets ∧ ∃ fault, soleText {} none packets = .error fault := by
  have went := seen_nil.proceeds packets []
  rw [List.nil_append, List.append_nil] at went
  rcases went with ⟨b, next, seen, same⟩ | refused
  · cases seen with
    | unended unended =>
        -- No packet has ended a run, so no part of the list is a complete one.
        refine .inr ⟨.incomplete fun before run after split complete => ?_, .incomplete, same⟩
        have one := unended.countP_closes
        rw [split, List.countP_append, List.countP_append, complete.countP_closes] at one
        omega
    | complete begun complete unended =>
        obtain ⟨runs, rfl, late, -⟩ := unended
        exact .inl ⟨_, _, _, _, rfl, begun, complete, late, rfl⟩
  · exact .inr refused

/-- Packets behind which the next one is always refused. -/
theorem soleText_refused_behind (packets : List Packet) (p : Packet) (rest : List Packet)
    (refused : ∀ (a : Assembler) found, Seen packets a.opened found → p.Refused a found) :
    ∃ fault, soleText {} none (packets ++ p :: rest) = .error fault := by
  rcases seen_nil.proceeds packets (p :: rest) with ⟨b, next, seen, same⟩ | ⟨-, failed⟩
  · rw [same]
    exact (refused b next seen).soleText rest
  · exact failed

theorem Flawed.not_carries (flawed : Flawed packets) (text : List UInt8) : ¬ Carries packets text := by
  intro carries
  have read := carries.soleText {}
  cases flawed with
  | @notText _ p member place =>
      obtain ⟨before, after, rfl⟩ := List.append_of_mem member
      obtain ⟨fault, failed⟩ := soleText_refused_behind before p after fun a found _ =>
        .notText place
      rw [failed] at read
      cases read
  | @orphan before after p place alone =>
      obtain ⟨fault, failed⟩ := soleText_refused_behind before p after fun a found seen =>
        .orphan place (seen.opened_eq_none alone)
      rw [failed] at read
      cases read
  | several before between after one other =>
      -- Each complete run has an end of its own, but there is one end in all.
      have count := carries.countP_closes
      simp only [List.countP_append, one.countP_closes, other.countP_closes] at count
      omega
  | incomplete none =>
      obtain ⟨before, run, after, split, -, complete, -⟩ := carries
      exact none _ _ _ split complete

theorem not_carries_iff_flawed (packets : List Packet) :
    (∀ text, ¬ Carries packets text) ↔ Flawed packets := by
  constructor
  · intro none
    rcases carries_or_flawed packets with ⟨text, carries⟩ | ⟨flawed, -⟩
    · exact absurd carries (none text)
    · exact flawed
  · exact Flawed.not_carries

theorem soleText_eq_ok (packets : List Packet) (text : List UInt8) :
    soleText {} none packets = .ok text ↔ Carries packets text := by
  constructor
  · intro read
    rcases carries_or_flawed packets with ⟨other, carries⟩ | ⟨-, fault, failed⟩
    · rw [carries.soleText] at read
      cases read
      exact carries
    · rw [failed] at read
      cases read
  · exact fun carries => carries.soleText {}

/-! ## Runs of texts -/

theorem place?_packet (lane : Lane) (form : FlexForm) {chunk : List UInt8}
    (fits : chunk.length ≤ 12) : (lane.packet form chunk).place? = some form := by
  obtain ⟨flex, read, text, same, -⟩ := lane.ofPacket_packet form fits
  rw [place?, read]
  simp only [text, if_true, same]

theorem Begun.complete_packRest (begun : Begun run) (lane : Lane) {chunks : List (List UInt8)}
    (more : chunks ≠ []) (fit : ∀ c ∈ chunks, c.length ≤ 12) :
    Complete (run ++ lane.packRest chunks) := by
  induction chunks generalizing run with
  | nil => exact absurd rfl more
  | cons chunk chunks ih =>
      obtain ⟨here, others⟩ := List.forall_mem_cons.mp fit
      by_cases final : chunks = []
      · rw [final]
        exact .last begun (place?_packet lane .last here)
      · have longer := ih (begun.middle (place?_packet lane .middle here)) final others
        rwa [List.append_assoc, List.singleton_append, ← Lane.packRest_cons final] at longer

theorem complete_pack (lane : Lane) (text : List UInt8) : Complete (lane.pack text) := by
  by_cases short : text.length ≤ FlexPacket.payloadSize
  · rw [Lane.pack_short short]
    exact .whole (place?_packet lane .whole short)
  · obtain ⟨first, rest, -, more, ⟨here, others⟩, packets⟩ :=
      Lane.pack_long (Nat.lt_of_not_le short) lane
    rw [packets]
    exact (Begun.start (place?_packet lane .start here)).complete_packRest lane more others

theorem carries_pack (early : ∀ r ∈ before, Begun r) (late : ∀ r ∈ after, Begun r) (lane : Lane)
    (text : List UInt8) :
    Carries (before.flatten ++ lane.pack text ++ after.flatten) (Lane.carried text) :=
  ⟨before, lane.pack text, after, rfl, early, complete_pack lane text, late,
    (Loss.carried_pack lane text).symm⟩

end Packet

/-! ## Envelopes -/

open Packet

section Decoding

variable {α : Type} {shape : Json.Shape α}

theorem parseText_eq_error {bytes : List UInt8} {error : CodecError}
    (failed : parseText shape bytes = .error error) : ∃ why, error = .decoding why := by
  rw [parseText] at failed
  cases read : Utf8.decode bytes with
  | error why =>
      rw [read] at failed
      exact ⟨_, (Except.error.inj failed).symm⟩
  | ok text =>
      simp only [read] at failed
      cases parsed : shape.parse text with
      | error why =>
          rw [parsed] at failed
          exact ⟨_, (Except.error.inj failed).symm⟩
      | ok v =>
          rw [parsed] at failed
          cases failed

theorem decodeRun_eq_ok (shape : Json.Shape α) (packets : List Packet) (x : α) :
    decodeRun shape packets = .ok x
      ↔ ∃ text, Carries packets text ∧ parseText shape text = .ok x := by
  simp only [← soleText_eq_ok]
  rw [decodeRun]
  cases soleText {} none packets with
  | error fault =>
      constructor
      · rintro ⟨⟩
      · rintro ⟨text, ⟨⟩, -⟩
  | ok bytes =>
      constructor
      · exact fun parsed => ⟨bytes, rfl, parsed⟩
      · rintro ⟨text, ⟨⟩, parsed⟩
        exact parsed

theorem decodeRun_eq_error {packets : List Packet} {error : CodecError}
    (failed : decodeRun shape packets = .error error) : ∃ why, error = .decoding why := by
  rw [decodeRun] at failed
  cases read : soleText {} none packets with
  | error fault =>
      rw [read] at failed
      exact ⟨fault, (Except.error.inj failed).symm⟩
  | ok bytes =>
      rw [read] at failed
      exact parseText_eq_error failed

/-- Packets decode to what their text is read as, and fail to decode in every other case. -/
structure Decodes (shape : Json.Shape α) (packets : List Packet) (result : Except CodecError α) :
    Prop where
  value : ∀ x, result = .ok x ↔ ∃ text, Carries packets text ∧ parseText shape text = .ok x
  otherwise : (¬ ∃ x text, Carries packets text ∧ parseText shape text = .ok x) →
    ∃ why, result = .error (.decoding why)

theorem decodes_decodeRun (shape : Json.Shape α) (packets : List Packet) :
    Decodes shape packets (decodeRun shape packets) where
  value := decodeRun_eq_ok shape packets
  otherwise := by
    intro none
    cases result : decodeRun shape packets with
    | error error =>
        obtain ⟨why, rfl⟩ := decodeRun_eq_error result
        exact ⟨why, rfl⟩
    | ok x => exact absurd ⟨x, (decodeRun_eq_ok shape packets x).mp result⟩ none

end Decoding

/-- Decoding accepts the lists of `Carries` whose text is read, and no other list; a list that carries
no text at all has one of the flaws of `Flawed`. -/
theorem decoding_accepts_sole_runs (packets : List Packet) :
    Decodes Command.shape packets (decode packets) ∧
      Decodes Event.shape packets (decodeEvent packets) ∧
      ((∀ text, ¬ Carries packets text) ↔ Flawed packets) :=
  ⟨decodes_decodeRun Command.shape packets, decodes_decodeRun Event.shape packets,
    not_carries_iff_flawed packets⟩

def sampleInterrupted : List Packet :=
  Lane.base.packet .start [0x7B] :: Lane.base.packet .middle [] ::
    (Lane.base.encodeEvent Lane.sampleEvent ++ [Lane.base.packet .start [0x22]])

theorem sample_interrupted_decodes : decodeEvent sampleInterrupted = .ok Lane.sampleEvent := by
  have first : Begun [Lane.base.packet .start [0x7B], Lane.base.packet .middle []] :=
    (Begun.start (place?_packet _ .start (by decide))).middle (place?_packet _ .middle (by decide))
  have last : Begun [Lane.base.packet .start [0x22]] := .start (place?_packet _ .start (by decide))
  have carries := carries_pack (List.forall_mem_singleton.mpr first)
    (List.forall_mem_singleton.mpr last) Lane.base (Utf8.encode Lane.sampleEvent.render)
  have free : (0 : UInt8) ∉ Utf8.encode Lane.sampleEvent.render :=
    zero_notMem_of_plain (Lane.sampleEvent.plain rfl)
  rw [Lane.carried_of_free free] at carries
  obtain ⟨-, events, -⟩ := decoding_accepts_sole_runs sampleInterrupted
  exact (events.value _).mpr ⟨_, carries, parseText_encode (Lane.sampleEvent.parse_render rfl)⟩

end FlexLink
