import FlexLink.Proofs.Wire.Runs

/-! # Where an assembler stands among runs

An assembler that takes the packets of many texts in order is between two runs, inside one that it
follows, or adrift in one whose start it missed.  `Awaits` ties what it holds to the packets that
are left and to the texts that they can still complete; one packet keeps the tie, and giving up
the open run loses at most the first of those texts. -/
set_option autoImplicit false
namespace FlexLink

namespace Lane

/-- Texts with the lanes that they are sent on, as packets. -/
def packAll (messages : List (Lane × List UInt8)) : List Packet :=
  messages.flatMap fun m => m.1.pack m.2

def carriedAll (messages : List (Lane × List UInt8)) : List (List UInt8) :=
  messages.map fun m => carried m.2

theorem carriedAll_cons (m : Lane × List UInt8) (messages : List (Lane × List UInt8)) :
    carriedAll (m :: messages) = carried m.2 :: carriedAll messages := List.map_cons

theorem carriedAll_of_free {messages : List (Lane × List UInt8)}
    (free : ∀ m ∈ messages, (0 : UInt8) ∉ m.2) : carriedAll messages = messages.map Prod.snd :=
  List.map_congr_left fun m member => carried_of_free (free m member)

theorem packAll_cons (m : Lane × List UInt8) (messages : List (Lane × List UInt8)) :
    packAll (m :: messages) = m.1.pack m.2 ++ packAll messages := List.flatMap_cons

theorem packAll_append (messages more : List (Lane × List UInt8)) :
    packAll (messages ++ more) = packAll messages ++ packAll more := List.flatMap_append

theorem packAll_flatten (sends : List (List (Lane × List UInt8))) :
    packAll sends.flatten = (sends.map packAll).flatten := by
  induction sends with
  | nil => rfl
  | cons send sends ih =>
      rw [List.flatten_cons, packAll_append, ih, List.map_cons, List.flatten_cons]

end Lane

namespace Assembler

def okTexts (outcome : Outcome) : List (List UInt8) := outcome.toList.filterMap Except.toOption

/-- The texts that packets complete for an assembler that may have a run open. -/
def textsFrom (a : Assembler) (packets : List Packet) : List (List UInt8) :=
  (a.pushAll packets).2.filterMap Except.toOption

theorem textsFrom_cons (a : Assembler) (p : Packet) (ps : List Packet) :
    a.textsFrom (p :: ps)
      = okTexts (a.push p).2 ++ (a.push p).1.textsFrom ps := by
  rw [textsFrom, pushAll_cons, List.filterMap_append]
  rfl

theorem textsFrom_append (a : Assembler) (ps qs : List Packet) :
    a.textsFrom (ps ++ qs) = a.textsFrom ps ++ (a.pushAll ps).1.textsFrom qs := by
  rw [textsFrom, pushAll_append, List.filterMap_append]
  rfl

/-- The chunks of the open run, the packets that are left, and the texts that they complete. -/
inductive Awaits : Option (List (List UInt8)) → List Packet → List (List UInt8) → Prop where
  /-- No run is open; the rest of a run whose start was missed may come first. -/
  | adrift (lane : Lane) (rest : List (List UInt8)) (messages : List (Lane × List UInt8))
      (fit : ∀ c ∈ rest, c.length ≤ 12) :
      Awaits none (lane.packRest rest ++ Lane.packAll messages) (Lane.carriedAll messages)
  | inside (lane : Lane) (done rest : List (List UInt8)) (messages : List (Lane × List UInt8))
      (more : rest ≠ []) (fit : ∀ c ∈ rest, c.length ≤ 12) :
      Awaits (some done) (lane.packRest rest ++ Lane.packAll messages)
        ((done.reverse.flatten ++ (rest.map stripZeros).flatten) :: Lane.carriedAll messages)

theorem Awaits.start (messages : List (Lane × List UInt8)) :
    Awaits none (Lane.packAll messages) (Lane.carriedAll messages) :=
  .adrift .base [] messages fun _ none => absurd none List.not_mem_nil

/-- What one packet does to the tie: the texts it completes leave the list of those to come. -/
def Follows (a : Assembler) (p : Packet) (left : List Packet) (texts : List (List UInt8)) : Prop :=
  ∃ later, okTexts (a.push p).2 ++ later = texts ∧ Awaits (a.push p).1.opened left later

theorem follows_pack (k : Nat) (m : Lane × List UInt8) (messages : List (Lane × List UInt8))
    {p : Packet} {left : List Packet} (packets : p :: left = Lane.packAll (m :: messages)) :
    Follows ⟨none, k⟩ p left (Lane.carriedAll (m :: messages)) := by
  rw [Lane.packAll_cons] at packets
  by_cases short : m.2.length ≤ FlexPacket.payloadSize
  · rw [Lane.pack_short short] at packets
    obtain ⟨rfl, rfl⟩ := List.cons.inj packets
    refine ⟨Lane.carriedAll messages, ?_, ?_⟩
    · rw [Lane.push_packet _ m.1 .whole short, Lane.carriedAll_cons,
        Lane.carried_of_length_le short]
      rfl
    · rw [Lane.push_packet _ m.1 .whole short]
      exact .start messages
  · obtain ⟨first, rest, cut, more, ⟨fits, others⟩, run⟩ :=
      Lane.pack_long (Nat.lt_of_not_le short) m.1
    rw [run] at packets
    obtain ⟨rfl, rfl⟩ := List.cons.inj packets
    refine ⟨Lane.carriedAll (m :: messages), ?_, ?_⟩
    · rw [Lane.push_packet _ m.1 .start fits]
      rfl
    · have text : Lane.carriedAll (m :: messages)
          = ([stripZeros first].reverse.flatten ++ (rest.map stripZeros).flatten)
              :: Lane.carriedAll messages := by
        rw [Lane.carriedAll_cons, Lane.carried, cut, List.map_cons, List.flatten_cons,
          List.reverse_singleton, List.flatten_singleton]
      rw [Lane.push_packet _ m.1 .start fits, text]
      exact .inside m.1 [stripZeros first] rest messages more others

/-- One packet, by where the assembler stands. -/
theorem Awaits.step {a : Assembler} {p : Packet} {left : List Packet} {texts : List (List UInt8)}
    (awaits : Awaits a.opened (p :: left) texts) : Follows a p left texts := by
  obtain ⟨opened, k⟩ := a
  generalize queue : p :: left = packets at awaits
  cases awaits with
  | adrift lane rest messages fit =>
      -- The packets of a run whose start is missing are refused, up to its end.
      cases rest with
      | nil =>
          cases messages with
          | nil => cases queue
          | cons m messages => exact follows_pack k m messages queue
      | cons chunk rest =>
          obtain ⟨fits, others⟩ := List.forall_mem_cons.mp fit
          refine ⟨Lane.carriedAll messages, ?_⟩
          by_cases final : rest = []
          · rw [final] at queue
            obtain ⟨rfl, rfl⟩ := List.cons.inj queue
            rw [Lane.push_packet _ lane .last fits]
            exact ⟨rfl, .start messages⟩
          · rw [Lane.packRest_cons final] at queue
            obtain ⟨rfl, rfl⟩ := List.cons.inj queue
            rw [Lane.push_packet _ lane .middle fits]
            exact ⟨rfl, .adrift lane rest messages others⟩
  | inside lane done rest messages more fit =>
      -- The next chunk is added to the run; the last one completes its text.
      cases rest with
      | nil => exact absurd rfl more
      | cons chunk rest =>
          obtain ⟨fits, others⟩ := List.forall_mem_cons.mp fit
          by_cases final : rest = []
          · rw [final] at queue
            obtain ⟨rfl, rfl⟩ := List.cons.inj queue
            refine ⟨Lane.carriedAll messages, ?_⟩
            rw [push_last lane fits, final]
            simp only [List.map_singleton, List.flatten_singleton]
            exact ⟨rfl, .start messages⟩
          · rw [Lane.packRest_cons final] at queue
            obtain ⟨rfl, rfl⟩ := List.cons.inj queue
            have text : done.reverse.flatten ++ ((chunk :: rest).map stripZeros).flatten
                = (stripZeros chunk :: done).reverse.flatten ++ (rest.map stripZeros).flatten := by
              simp
            rw [Follows, push_middle lane fits, text]
            exact ⟨_, rfl, .inside lane (stripZeros chunk :: done) rest messages final others⟩

/-- Packets in order, as far as they come. -/
theorem Awaits.run {a : Assembler} {ps left : List Packet} {texts : List (List UInt8)}
    (awaits : Awaits a.opened (ps ++ left) texts) :
    ∃ later, a.textsFrom ps ++ later = texts ∧ Awaits (a.pushAll ps).1.opened left later := by
  induction ps generalizing a texts with
  | nil => exact ⟨texts, rfl, awaits⟩
  | cons p ps ih =>
      obtain ⟨more, here, next⟩ := awaits.step
      obtain ⟨later, there, final⟩ := ih next
      refine ⟨later, ?_, final⟩
      rw [textsFrom_cons, List.append_assoc, there, here]

/-- The open run is given up. -/
theorem Awaits.forget {opened : Option (List (List UInt8))} {left : List Packet}
    {texts : List (List UInt8)} (awaits : Awaits opened left texts) :
    ∃ later, later.Sublist texts ∧ Awaits none left later := by
  cases awaits with
  | adrift lane rest messages fit => exact ⟨_, List.Sublist.refl _, .adrift lane rest messages fit⟩
  | inside lane done rest messages _ fit =>
      exact ⟨_, List.sublist_cons_self _ _, .adrift lane rest messages fit⟩

end Assembler
end FlexLink
