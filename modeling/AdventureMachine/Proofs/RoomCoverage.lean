import AdventureMachine.Proofs.RoomSearch

/-! What a search of rooms covers in a compiled world. Places are told apart by title and
description, so the keys that were seen stand for places. When part of a search finds nothing, every
place that it has seen is done with: all exits that are not skipped were refused, and they lead to
places that were seen. So a search that ends without a find has seen all that can be reached. -/
namespace AdventureMachine

namespace RoomSearch

open World (Place Answer Waits)

/-- An answer to taking an exit of a place that is not skipped. -/
def Answers (world : World) (skipped : List String) (here : Place) (answer : Answer) : Prop :=
  ∃ exit ∈ here.exits, exit.name ∉ skipped ∧
    world.respond here (Text.heard exit.name) = some answer

/-- Taking an exit of the one place that is not skipped has the other place described. -/
def Passes (world : World) (skipped : List String) (here there : Place) : Prop :=
  ∃ answer, Answers world skipped here answer ∧ answer.describes = true ∧ answer.place = there

section Keys

variable {world : World}

theorem title_eq_of_key {here there : Place} (legible : here.Legible) (clear : there.Legible)
    (same : here.room.key = there.room.key) :
    here.title = there.title ∧ here.description = there.description := by
  have key (place : Place) : place.room.key.toList =
      place.title.toList ++ '\n' :: place.description.toList := by
    have newline : "\n".toList = ['\n'] := by decide
    simp [Room.key, Place.room, newline]
  have line (place : Place) (legible : place.Legible) :
      place.room.key.toList.takeWhile (fun c => !Text.isLineEnd c) = place.title.toList := by
    rw [key]
    exact Room.takeWhile_line legible.title (by simp [Text.isLineEnd])
  have titles : here.title.toList = there.title.toList := by
    rw [← line here legible, ← line there clear, same]
  have behind := congrArg String.toList same
  rw [key, key, titles, List.append_cancel_left_eq] at behind
  exact ⟨String.toList_inj.mp titles, String.toList_inj.mp (List.cons.inj behind).2⟩

/-- Places whose titles and descriptions are told apart have different keys. -/
theorem eq_of_key (legible : ∀ place ∈ world.places, place.Legible)
    (distinct : (world.places.map fun place => (place.title, place.description)).Nodup)
    {here there : Place} (member : here ∈ world.places) (known : there ∈ world.places)
    (same : here.room.key = there.room.key) : here = there := by
  obtain ⟨titles, descriptions⟩ := title_eq_of_key (legible here member) (legible there known) same
  exact List.inj_on_of_nodup_map distinct member known (Prod.ext titles descriptions)

end Keys

/-- How many places were not seen yet. -/
def unseen (world : World) (visited : Std.HashSet String) : Nat :=
  world.places.countP fun place => place.room.key ∉ visited

section Unseen

variable {world : World} {before after : Std.HashSet String}

theorem unseen_mono (kept : ∀ key ∈ before, key ∈ after) : unseen world after ≤ unseen world before := by
  apply List.countP_mono_left
  intro place _ missing
  simp only [decide_eq_true_eq] at missing ⊢
  exact fun seen => missing (kept _ seen)

theorem unseen_insert {place : Place} (member : place ∈ world.places)
    (new : place.room.key ∉ before) :
    unseen world (before.insert place.room.key) < unseen world before := by
  apply countP_lt_countP member
  · simpa using new
  · simp
  · intro other _ missing
    simp only [decide_eq_true_eq] at missing ⊢
    exact fun seen => missing (Std.HashSet.mem_insert.mpr (.inr seen))

/-- No place is too deep for a search. -/
theorem unseen_lt_deepest {words : List UInt16} (installed : world.Installed words)
    (visited : Std.HashSet String) : unseen world visited < deepest := by
  have few : unseen world visited ≤ memorySize :=
    Nat.le_trans List.countP_le_length installed.length_places
  exact Nat.lt_of_le_of_lt few (by decide)

end Unseen

section Coverage

variable (world : World) (accept : Response → Bool) (skipped : List String)

/-- Nothing was found at a place: its answers were refused, and the places they describe were
seen. -/
def Done (visited : Std.HashSet String) (here : Place) : Prop :=
  ∀ answer, Answers world skipped here answer → accept answer.response = false ∧
    (answer.describes = true → answer.place.room.key ∈ visited)

/-- What part of a search leaves that finds nothing: all places it has seen are done with. -/
structure Covers (before after : Std.HashSet String) : Prop where
  kept : ∀ key ∈ before, key ∈ after
  done : ∀ place ∈ world.places, place.room.key ∈ after →
    place.room.key ∈ before ∨ Done world accept skipped after place

/-- Something can be found from a place on. -/
def Fruitful (here : Place) : Prop :=
  ∃ there answer, Relation.ReflTransGen (Passes world skipped) here there ∧
    Answers world skipped there answer ∧ accept answer.response = true

end Coverage

section Parts

variable {world : World} {accept : Response → Bool} {skipped : List String}
  {before middle after : Std.HashSet String}

theorem Done.mono {here : Place} (done : Done world accept skipped before here)
    (kept : ∀ key ∈ before, key ∈ after) : Done world accept skipped after here := by
  intro answer given
  obtain ⟨refused, seen⟩ := done answer given
  exact ⟨refused, fun describes => kept _ (seen describes)⟩

theorem Covers.refl (visited : Std.HashSet String) : Covers world accept skipped visited visited :=
  ⟨fun _ seen => seen, fun _ _ seen => .inl seen⟩

theorem Covers.trans (first : Covers world accept skipped before middle)
    (second : Covers world accept skipped middle after) :
    Covers world accept skipped before after := by
  refine ⟨fun key seen => second.kept key (first.kept key seen), ?_⟩
  intro place member seen
  rcases second.done place member seen with earlier | done
  · exact (first.done place member earlier).imp_right fun done => done.mono second.kept
  · exact .inr done

/-- A place that was just seen may be counted among the new ones when it is done with. -/
theorem Covers.insert {here : Place}
    (injective : ∀ place ∈ world.places, place.room.key = here.room.key → place = here)
    (covers : Covers world accept skipped (before.insert here.room.key) after)
    (done : Done world accept skipped after here) : Covers world accept skipped before after := by
  refine ⟨fun key seen => covers.kept key (Std.HashSet.mem_insert.mpr (.inr seen)), ?_⟩
  intro place member seen
  rcases covers.done place member seen with earlier | finished
  · rcases Std.HashSet.mem_insert.mp earlier with same | earlier
    · rw [injective place member (beq_iff_eq.mp same).symm]
      exact .inr done
    · exact .inl earlier
  · exact .inr finished

theorem Fruitful.head {here there : Place} (passes : Passes world skipped here there)
    (fruitful : Fruitful world accept skipped there) : Fruitful world accept skipped here := by
  obtain ⟨last, answer, reached, given, accepted⟩ := fruitful
  exact ⟨last, answer, .head passes reached, given, accepted⟩

end Parts

/-- How part of a search ends that tries exits of a place: it finds nothing and has then dealt with
these exits, or there is something to be found. -/
structure Deals (world : World) (accept : Response → Bool) (skipped : List String) (here : Place)
    (exits : List World.Exit) (before : Std.HashSet String) (result : Option Find × Progress) :
    Prop where
  covers : result.1 = none → Covers world accept skipped before result.2.visited
  done : result.1 = none → ∀ exit ∈ exits, exit.name ∉ skipped → ∀ answer,
    world.respond here (Text.heard exit.name) = some answer → accept answer.response = false ∧
      (answer.describes = true → answer.place.room.key ∈ result.2.visited)
  fruitful : result.1 ≠ none → Fruitful world accept skipped here

namespace Deals

variable {world : World} {accept : Response → Bool} {skipped : List String} {here : Place}
  {exit : World.Exit} {exits : List World.Exit} {before middle : Std.HashSet String}
  {result : Option Find × Progress}

theorem none (progress : Progress) :
    Deals world accept skipped here [] progress.visited (.none, progress) :=
  ⟨fun _ => .refl _, fun _ => List.forall_mem_nil _, fun found => absurd rfl found⟩

theorem found (fruitful : Fruitful world accept skipped here) (find : Find) (last : Progress) :
    Deals world accept skipped here exits before (some find, last) :=
  ⟨fun none => absurd none (Option.some_ne_none find),
    fun none => absurd none (Option.some_ne_none find), fun _ => fruitful⟩

theorem skip (left : exit.name ∈ skipped)
    (deals : Deals world accept skipped here exits before result) :
    Deals world accept skipped here (exit :: exits) before result := by
  refine ⟨deals.covers, ?_, deals.fruitful⟩
  intro none
  exact List.forall_mem_cons.mpr ⟨fun taken => absurd left taken, deals.done none⟩

/-- An exit was refused and the place it describes was seen before the others are dealt with. -/
theorem cons {answer : Answer} (said : world.respond here (Text.heard exit.name) = some answer)
    (refused : accept answer.response = false) (covers : Covers world accept skipped before middle)
    (seen : answer.describes = true → answer.place.room.key ∈ middle)
    (deals : Deals world accept skipped here exits middle result) :
    Deals world accept skipped here (exit :: exits) before result := by
  refine ⟨fun none => covers.trans (deals.covers none), ?_, deals.fruitful⟩
  intro none
  refine List.forall_mem_cons.mpr ⟨?_, deals.done none⟩
  intro _ other replied
  obtain rfl : answer = other := Option.some.inj (said.symm.trans replied)
  exact ⟨refused, fun describes => (deals.covers none).kept _ (seen describes)⟩

theorem all (deals : Deals world accept skipped here here.exits before result)
    (none : result.1 = .none) : Done world accept skipped result.2.visited here := by
  rintro answer ⟨exit, listed, taken, said⟩
  exact deals.done none exit listed taken answer said

end Deals

section Depth

variable {world : World} {image : Bytes} {words : List UInt16} {accept : Response → Bool}
  {skipped : List String} {here : Place} {game : Adventure} {path : List String}
  (installed : world.Installed words) (decoded : Image.decode image = .ok words)
  (playable : world.Playable) (formed : world.WellFormed)

include installed decoded playable formed

/-- Every exit of a place has an answer, and trying it where a game waits gives this answer. -/
theorem exists_attempt (waits : world.Waits image here game) (member : here ∈ world.places)
    {exit : World.Exit} (listed : exit ∈ here.exits) :
    ∃ answer fork, world.respond here (Text.heard exit.name) = some answer ∧
      answer.place ∈ world.places ∧
      (game.attempt Machine.unlimited exit.name).value = .ok (answer.event, fork) ∧
      world.Waits image answer.place fork := by
  have single := (formed.places here member).exits exit listed
  obtain ⟨answer, said, known, _⟩ := playable.leads_respond 0 [] 0
    (fun _ => installed.stands) member (Text.lineFeed_not_mem_heardBytes single) []
  obtain ⟨fork, tried, waiting⟩ := World.waits_attempt_exit installed decoded playable waits member
    listed single said (formed.legible_respond member said).1
  exact ⟨answer, fork, said, known, tried, waiting⟩

variable (distinct : (world.places.map fun place => (place.title, place.description)).Nodup)

include distinct

theorem deals_tryExits {depth : Nat}
    (deeper : ∀ {here : Place} {game : Adventure} (path : List String) {progress : Progress},
      here ∈ world.places → world.Waits image here game →
      unseen world progress.visited < depth →
      ∃ result, ending (explore ⟨accept, skipped, none⟩ depth game here.room path) progress =
          .ok result ∧
        Deals world accept skipped here here.exits progress.visited result)
    (member : here ∈ world.places) (waits : world.Waits image here game)
    {exits : List World.Exit} (listed : ∀ exit ∈ exits, exit ∈ here.exits) {progress : Progress}
    (shallow : unseen world progress.visited ≤ depth) :
    ∃ result, ending (tryExits ⟨accept, skipped, none⟩ (explore ⟨accept, skipped, none⟩ depth) game
          path (exits.map World.Exit.name)) progress = .ok result ∧
      Deals world accept skipped here exits progress.visited result := by
  induction exits generalizing progress with
  | nil => exact ⟨_, rfl, .none progress⟩
  | cons exit rest ih =>
    obtain ⟨first, others⟩ := List.forall_mem_cons.mp listed
    rw [List.map_cons, ending_tryExits_cons]
    by_cases left : exit.name ∈ skipped
    · obtain ⟨result, ended, deals⟩ := ih others shallow
      exact ⟨result, by rw [if_pos left, ended], deals.skip left⟩
    obtain ⟨answer, fork, said, known, tried, waiting⟩ :=
      exists_attempt installed decoded playable formed waits member first
    have given : Answers world skipped here answer := ⟨exit, first, left, said⟩
    have told : answer.event.toResponse = answer.response := rfl
    have budget : Machine.budgetOf none = Machine.unlimited := rfl
    have compared : unseen world (progress.compared answer.response).visited ≤ depth := shallow
    simp only [if_neg left, budget, tried, Except.bind, told]
    by_cases accepted : accept answer.response = true
    · exact ⟨_, if_pos accepted, .found ⟨here, answer, .refl, given, accepted⟩ _ _⟩
    have refused : accept answer.response = false := by simpa using accepted
    simp only [if_neg accepted]
    cases describes : answer.describes with
    | false =>
      have silent : answer.response.room = none := by
        rw [Answer.response, describes]
        rfl
      obtain ⟨result, ended, deals⟩ := ih others compared
      simp only [silent]
      exact ⟨result, ended, .cons said refused (.refl _) (by simp [describes]) deals⟩
    | true =>
      have described : answer.response.room = some answer.place.room := by
        rw [Answer.response, describes]
        rfl
      simp only [described]
      by_cases old : answer.place.room.key ∈ progress.visited
      · obtain ⟨result, ended, deals⟩ := ih others compared
        exact ⟨result, by rw [if_pos old, ended], .cons said refused (.refl _) (fun _ => old) deals⟩
      have deep : unseen world ((progress.compared answer.response).seen answer.place.room).visited <
          depth := Nat.lt_of_lt_of_le (unseen_insert known old) shallow
      obtain ⟨explored, ended, dealt⟩ := deeper (path ++ [exit.name]) known waiting deep
      simp only [if_neg old, ended]
      obtain ⟨_ | found, last⟩ := explored
      · have covers := (dealt.covers rfl).insert
          (fun place among same => eq_of_key formed.places distinct among known same) (dealt.all rfl)
        obtain ⟨result, finished, deals⟩ :=
          ih others (Nat.le_trans (unseen_mono covers.kept) shallow)
        refine ⟨result, finished, .cons said refused covers ?_ deals⟩
        exact fun _ => (dealt.covers rfl).kept _ (key_mem_seen _ _)
      · have onward := dealt.fruitful (Option.some_ne_none found)
        exact ⟨_, rfl, .found (.head ⟨answer, given, describes, rfl⟩ onward) _ _⟩

/-- Exploring a place deep enough finds nothing only when there is nothing. -/
theorem deals_explore (depth : Nat) (path : List String) {progress : Progress}
    (member : here ∈ world.places) (waits : world.Waits image here game)
    (shallow : unseen world progress.visited < depth) :
    ∃ result, ending (explore ⟨accept, skipped, none⟩ depth game here.room path) progress =
        .ok result ∧
      Deals world accept skipped here here.exits progress.visited result := by
  induction depth generalizing here game path progress with
  | zero => exact absurd shallow (Nat.not_lt_zero _)
  | succ depth ih =>
    exact deals_tryExits installed decoded playable formed distinct ih member waits
      (fun _ listed => listed) (Nat.le_of_lt_succ shallow)

end Depth

section Reachable

variable {world : World} {skipped : List String} {here there : Place} (formed : world.WellFormed)
  (member : here ∈ world.places)
  (reached : Relation.ReflTransGen (Passes world skipped) here there)

include formed member reached

theorem mem_of_reachable : there ∈ world.places := by
  induction reached with
  | refl => exact member
  | tail _ passes among =>
    obtain ⟨answer, ⟨exit, listed, taken, said⟩, _, rfl⟩ := passes
    exact (formed.legible_respond among said).2

/-- When a place is done with and so are all places that were seen, everything that can be reached
is done with. -/
theorem done_of_reachable {accept : Response → Bool} {visited : Std.HashSet String}
    (done : Done world accept skipped visited here)
    (covers : Covers world accept skipped .emptyWithCapacity visited) :
    Done world accept skipped visited there := by
  induction reached with
  | refl => exact done
  | tail earlier passes ih =>
    have known := mem_of_reachable formed member (earlier.tail passes)
    obtain ⟨answer, given, describes, rfl⟩ := passes
    rcases covers.done _ known ((ih answer given).2 describes) with nowhere | finished
    · exact absurd nowhere Std.HashSet.not_mem_emptyWithCapacity
    · exact finished

end Reachable

/-- Searching the rooms of a compiled world from a place where the game waits: the search comes to
its end within its bound and without an error, and finds nothing exactly when neither the place nor
any answer to an exit of a place that can be reached is accepted, skipped exits apart. Where the
name of an exit does not begin with a carriage return, the answer tells its message and describes
its destination. -/
theorem run_finds_reachable {world : World} {image : Bytes} (compiled : world.compile = .ok image)
    (fits : image.length ≤ Image.maxBytes) (formed : world.WellFormed)
    (distinct : (world.places.map fun place => (place.title, place.description)).Nodup)
    {here : Place} (member : here ∈ world.places) {game : Adventure}
    (waits : world.Waits image here game) (accept : Response → Bool) (skipped : List String) :
    ∃ report, (run ⟨accept, skipped, none⟩ game here.room).value = .ok report ∧
      (report.found = none ↔ accept ⟨"", some here.room⟩ = false ∧
        ∀ there answer, Relation.ReflTransGen (Passes world skipped) here there →
          Answers world skipped there answer → accept answer.response = false) ∧
      ∀ there ∈ world.places, ∀ exit ∈ there.exits, exit.name.toList.head? ≠ some '\r' →
        ∃ behind, world.place? exit.destination = some behind ∧
          world.respond there (Text.heard exit.name) = some ⟨exit.message, behind, true⟩ := by
  obtain ⟨words, decoded, installed⟩ := World.installed_of_compile compiled fits
  have playable := World.playable_of_check (World.compile_ok compiled).1 formed.narrow
    formed.exitsNamed
  have declared : ∀ there ∈ world.places, ∀ exit ∈ there.exits,
      exit.name.toList.head? ≠ some '\r' → ∃ behind, world.place? exit.destination = some behind ∧
        world.respond there (Text.heard exit.name) = some ⟨exit.message, behind, true⟩ := by
    intro there known exit listed plain
    obtain ⟨behind, found, _, said⟩ :=
      World.exists_respond_exit compiled playable known listed plain
    exact ⟨behind, found, said⟩
  rw [value_run]
  by_cases accepted : accept ⟨"", some here.room⟩ = true
  · rw [if_pos accepted]
    refine ⟨_, rfl, ?_, declared⟩
    simp [accepted]
  · obtain ⟨result, ended, deals⟩ := deals_explore installed decoded playable formed distinct deepest
      [] member waits (unseen_lt_deepest installed _)
    rw [if_neg accepted, ended]
    refine ⟨_, rfl, ?_, declared⟩
    constructor
    · intro none
      have covers := (deals.covers none).insert
        (fun place among same => eq_of_key formed.places distinct among member same)
        (deals.all none)
      refine ⟨by simpa using accepted, ?_⟩
      intro there answer reached given
      exact (done_of_reachable formed member reached (deals.all none) covers answer given).1
    · rintro ⟨_, barren⟩
      by_contra found
      obtain ⟨there, answer, reached, given, fruit⟩ := deals.fruitful found
      rw [barren there answer reached given] at fruit
      cases fruit

/-- There is no can in the two rooms, and the search for one ends. -/
theorem run_finds_reachable_twoRooms :
    ∃ image hall game report, World.twoRooms.compile = .ok image ∧
      image.length ≤ Image.maxBytes ∧ World.twoRooms.WellFormed ∧
      (World.twoRooms.places.map fun place => (place.title, place.description)).Nodup ∧
      hall ∈ World.twoRooms.places ∧ World.twoRooms.Waits image hall game ∧
      (run ⟨listsItem "can", ["ladder"], none⟩ game hall.room).value = .ok report ∧
      report.found = none := by
  obtain ⟨image, hall, game, compiled, fits, _, member, waits⟩ := exists_waits_twoRooms
  have formed := World.wellFormed_twoRooms
  have distinct : (World.twoRooms.places.map fun place => (place.title, place.description)).Nodup := by
    decide
  obtain ⟨report, searched, barren, _⟩ := run_finds_reachable compiled fits formed distinct member
    waits (listsItem "can") ["ladder"]
  refine ⟨image, hall, game, report, compiled, fits, formed, distinct, member, waits, searched, ?_⟩
  have rooms : ∀ place ∈ World.twoRooms.places, listsItem "can" ⟨"", some place.room⟩ = false := by
    decide
  have answers : ∀ place ∈ World.twoRooms.places, ∀ exit ∈ place.exits,
      (World.twoRooms.respond place (Text.heard exit.name)).all
        (fun answer => !listsItem "can" answer.response) = true := by
    decide +kernel
  refine barren.mpr ⟨rooms hall member, ?_⟩
  rintro there answer reached ⟨exit, listed, _, said⟩
  have refused := answers there (mem_of_reachable formed member reached) exit listed
  rw [said] at refused
  simpa using refused

end RoomSearch

end AdventureMachine
