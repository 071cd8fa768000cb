import PipelinedProcessor.Proofs.Pipeline.Retirement

namespace PipelinedProcessor

open Flight

namespace Slots

-- All flights have a property, whatever stages they are in.
def Each (slots : Slots) (Q : Flight → Prop) : Prop := ∀ stage f, slots.slot stage = some f → Q f

namespace Each

variable {slots : Slots} {Q : Flight → Prop} (h : slots.Each Q)

include h

theorem of_mem {f : Flight} (hf : f ∈ slots.flights) : Q f := by
  obtain ⟨stage, hslot⟩ := mem_flights.mp hf
  exact h stage f hslot

theorem replace (stage : Stage) {slot : Option Flight} (hslot : ∀ f, slot = some f → Q f) :
    (slots.put stage slot).Each Q := by
  by_cases hplace : stage = .system
  · rw [hplace]
    exact h
  · intro other g hg
    rw [slots.slot_put stage hplace] at hg
    split at hg
    · exact hslot g hg
    · exact h other g hg

theorem remove (stage : Stage) : (slots.put stage none).Each Q :=
  h.replace stage fun _ hf => by cases hf

theorem put (stage : Stage) {f : Flight} (hf : Q f) : (slots.put stage (some f)).Each Q :=
  h.replace stage fun _ hg => Option.some.inj hg ▸ hf

theorem pass (first second : Stage)
    (henter : ∀ f, slots.slot first = some f → f.state = .completed → Q f → Q (f.enter second)) :
    (slots.pass first second).Each Q := by
  rcases slots.pass_cases first second with hsame | ⟨f, hf, -, hstate, hpass⟩
  · rw [hsame]
    exact h
  · rw [hpass]
    exact (h.remove first).put second (henter f hf hstate (h first f hf))

end Each

end Slots

namespace Pipeline

-- What the actions of a flight keep is kept by the stages, for every flight in them.

section

variable {p : Pipeline} {Q : Flight → Prop} (hwell : WellFormed p) (h : p.slots.Each Q)

include hwell h

theorem each_moveOn
    (henter : ∀ f stage, f.state = .completed → stage.order.val = f.stage.order.val + 1 →
      Q f → Q (f.enter stage)) :
    (moveOn p.slots).Each Q := by
  have hpass {q : Pipeline} (hq : WellFormed q) (heach : q.slots.Each Q) (first second : Stage)
      (horder : second.order.val = first.order.val + 1) : (q.slots.pass first second).Each Q := by
    refine heach.pass first second ?_
    intro f hf hstate hQ
    exact henter f second hstate (by rw [hq.inPlace first f hf]; exact horder) hQ
  have hwriteBack := hwell.move .memory .writeBack rfl nofun
  have hmemory := hwriteBack.move .execute .memory rfl nofun
  have hexecute := hmemory.move .decode .execute rfl nofun
  have heach := hpass hwell h .memory .writeBack rfl
  replace heach := hpass hwriteBack heach .execute .memory rfl
  replace heach := hpass hmemory heach .decode .execute rfl
  rw [Slots.moveOn_eq]
  exact hpass hexecute heach .fetch .decode rfl

theorem each_retire (hwake : ∀ f j, f.state = .stalled j → f.stage = .decode → Q f → Q f.complete) :
    p.retire.slots.Each Q := by
  rcases in_state_or_not (p.slots.slot .writeBack) .completed with ⟨f, hf, hstate⟩ | hunfinished
  · rw [retire_of_completed hf hstate]
    intro stage g' hg'
    obtain ⟨g, hg, rfl⟩ := Slots.slot_woken hg'
    by_cases hwaits : g.state = .stalled f.id
    · rw [wakeIf_of_stalled hwaits]
      exact hwake g f.id hwaits ((hwell.fits hg).stalled f.id hwaits).1 (h stage g hg)
    · rw [wakeIf_of_not_stalled hwaits]
      exact h stage g hg
  · rw [retire_of_unfinished hunfinished]
    exact h

theorem each_advance (hwake : ∀ f j, f.state = .stalled j → f.stage = .decode → Q f → Q f.complete)
    (henter : ∀ f stage, f.state = .completed → stage.order.val = f.stage.order.val + 1 →
      Q f → Q (f.enter stage)) :
    p.advance.slots.Each Q :=
  each_moveOn hwell.retire (each_retire hwell h hwake) henter

variable {σ : Type}

theorem each_commitStage (context : Context σ)
    (hcommit : ∀ f, f.stage = .writeBack → f.state = .ready → Q f → Q (f.commit context).1) :
    (p.commitStage context).1.slots.Each Q := by
  rcases in_state_or_not (p.slots.slot .writeBack) .ready with ⟨f, hf, hready⟩ | hidle
  · rw [commitStage_of_ready hf hready]
    exact h.put .writeBack (hcommit f (hwell.inPlace _ f hf) hready (h _ f hf))
  · rw [commitStage_of_idle hidle]
    exact h

theorem each_executeStage {registers : Registers} {vectors : VectorRegisters} {p' : Pipeline}
    (hresult : p.executeStage registers vectors = .ok p')
    (hexecute : ∀ f f' older, f.Fits p.retired older → f.stage = .execute → f.state = .ready →
      f.execute registers vectors = .ok f' → Q f → Q f') : p'.slots.Each Q := by
  rcases in_state_or_not (p.slots.slot .execute) .ready with ⟨f, hf, hready⟩ | hidle
  · rw [executeStage_of_ready hf hready] at hresult
    obtain ⟨f', hdone, rfl⟩ := ok_of_map hresult
    exact h.put .execute
      (hexecute f f' _ (hwell.fits hf) (hwell.inPlace _ f hf) hready hdone (h _ f hf))
  · rw [executeStage_of_idle hidle] at hresult
    obtain rfl := Except.ok.inj hresult
    exact h

omit hwell in
theorem each_decodeStage (hdecode : ∀ f others, Q f → Q (f.decode others)) :
    p.decodeStage.slots.Each Q := by
  unfold Pipeline.decodeStage
  split
  · exact h
  · rename_i f hf
    split
    · exact h.put .decode (hdecode f _ (h .decode f hf))
    · exact h
    · exact h

variable [Storage σ]

theorem each_accessStage (context : Context σ)
    (haccess : ∀ f, f.stage = .memory → f.state = .ready → Q f → Q (f.access context).2.1) :
    (p.accessStage context).2.1.slots.Each Q := by
  rcases in_state_or_not (p.slots.slot .memory) .ready with ⟨f, hf, hready⟩ | hidle
  · have hQ := haccess f (hwell.inPlace _ f hf) hready (h _ f hf)
    rcases hresult : f.access context with ⟨fault, f', after⟩
    rw [hresult] at hQ
    rw [accessStage_of_ready hf hready hresult]
    exact h.put .memory hQ
  · rw [accessStage_of_idle hidle]
    exact h

omit h in
-- Whoever is in Fetch is taken out, or has done its work there.
theorem slots_fetchStage {f : Flight} (hf : p.slots.slot .fetch = some f)
    (hready : f.state = .ready) (context : Context σ) :
    (p.fetchStage context).1.slots = p.slots.put .fetch none ∨
      (p.fetchStage context).1.slots = p.slots.put .fetch (some (f.fetch context).1) := by
  rcases hread :
    Storage.read context.memory .fetch (f.target context.registers) with ⟨answer, memory⟩
  cases answer with
  | wait =>
      have hblank := (hwell.fits hf).blank (hwell.progress_of_ready hf hready)
      right
      rw [fetchStage_of_wait hf hready hblank hread, fetch_of_wait hread]
  | done w =>
      by_cases hhalt : w = Word.halt
      · left
        subst hhalt
        rw [fetchStage_of_halt hf hready hread]
      · right
        rw [fetchStage_of_word hf hready hhalt hread, fetch_of_done hread]

theorem each_fetchStage (context : Context σ)
    (hfetch : ∀ f older, f.Fits p.retired older → f.stage = .fetch → f.state = .ready → Q f →
      Q (f.fetch context).1) : (p.fetchStage context).1.slots.Each Q := by
  rcases in_state_or_not (p.slots.slot .fetch) .ready with ⟨f, hf, hready⟩ | hidle
  · rcases slots_fetchStage hwell hf hready context with hgone | hdone
    · rw [hgone]
      exact h.remove .fetch
    · rw [hdone]
      exact h.put .fetch (hfetch f _ (hwell.fits hf) (hwell.inPlace _ f hf) hready (h _ f hf))
  · rw [fetchStage_of_idle hidle]
    exact h

end

-- What a flight never loses, if those have it that get a number from some number on.
structure Lasting (σ : Type) [Storage σ] (start : Nat) (Q : Flight → Prop) : Prop where
  fresh : ∀ id, start ≤ id → Q { id := id }
  fetch : ∀ {retired older f}, f.Fits retired older → f.stage = .fetch → f.state = .ready → Q f →
    ∀ context : Context σ, Q (f.fetch context).1
  decode : ∀ {f} others, Q f → Q (f.decode others)
  execute : ∀ {retired older f f' registers vectors}, f.Fits retired older → f.stage = .execute →
    f.state = .ready →
    f.execute registers vectors = .ok f' → Q f → Q f'
  access : ∀ {f}, Q f → ∀ context : Context σ, Q (f.access context).2.1
  commit : ∀ {f}, Q f → ∀ context : Context σ, Q (f.commit context).1
  complete : ∀ {f}, Q f → Q f.complete
  enter : ∀ {f} stage, Q f → Q (f.enter stage)

theorem lasting_of_grows {σ : Type} [Storage σ] {start : Nat} {Q : Flight → Prop}
    (hfresh : ∀ id, start ≤ id → Q { id := id }) (hgrows : ∀ f f', Grows f f' → Q f → Q f') :
    Lasting σ start Q where
  fresh := hfresh
  fetch {_ _ f} _ _ _ hQ context := hgrows f _ (f.grows_fetch context) hQ
  decode {f} others hQ := hgrows f _ (f.grows_decode others) hQ
  execute {_ _ f f' _ _} _ _ _ hresult hQ := hgrows f f' (grows_execute hresult) hQ
  access {f} hQ context := hgrows f _ (f.grows_access context) hQ
  commit {f} hQ context := hgrows f _ (f.grows_commit context) hQ
  complete {f} hQ := hgrows f _ f.grows_complete hQ
  enter {f} stage hQ := hgrows f _ (f.grows_enter stage) hQ

-- Whoever has left a stage behind never comes back to it, and keeps its address and the word that
-- it has read.

theorem lasting_done {σ : Type} [Storage σ] (stage : Stage) (b : Nat) :
    Lasting σ (b + 1) fun f => f.id ≤ b → stage ∈ f.stagesDone := by
  refine lasting_of_grows (fun id hid hle => absurd hle (by simp; omega)) ?_
  intro f f' hgrows hdone hle
  exact hgrows.done stage (hdone (hgrows.id_eq ▸ hle))

theorem lasting_address {σ : Type} [Storage σ] (id address : Nat) :
    Lasting σ (id + 1) fun f => f.id = id → f.address = some address := by
  refine lasting_of_grows (fun other hother heq => absurd heq (by simp; omega)) ?_
  intro f f' hgrows haddress heq
  exact hgrows.address address (haddress (hgrows.id_eq ▸ heq))

theorem lasting_raw {σ : Type} [Storage σ] (id : Nat) (w : Word) :
    Lasting σ (id + 1) fun f => f.id = id → f.raw = some w where
  fresh other hother heq := absurd heq (by simp; omega)
  fetch {_ _ f} hfits hstage hready hraw context heq := by
    have hblank := hfits.blank (progress_of_ready hready hstage)
    rw [hraw ((f.grows_fetch context).id_eq ▸ heq)] at hblank
    cases hblank
  decode {f} others hraw heq := by
    obtain ⟨hid, -, hsame⟩ := f.decode_same others
    exact hsame.trans (hraw (hid ▸ heq))
  execute {_ _ f f' _ _} hfits hstage hready hresult hraw heq := by
    obtain ⟨-, hface, hsame, -⟩ := hfits.execute hready hstage hresult
    exact hsame.trans (hraw (hface.id_eq ▸ heq))
  access {f} hraw context heq :=
    (f.raw_access context).trans (hraw ((f.grows_access context).id_eq ▸ heq))
  commit hraw _ heq := hraw heq
  complete hraw heq := hraw heq
  enter _ hraw heq := hraw heq

-- All flights have what those never lose that get a number from some number on.
structure Upheld (start : Nat) (Q : Flight → Prop) (p : Pipeline) : Prop where
  wellFormed : WellFormed p
  start_le : start ≤ p.nextId
  each : p.slots.Each Q

theorem Upheld.of_later {start : Nat} {Q : Flight → Prop} {p q : Pipeline} (h : Upheld start Q p)
    (hlater : Later p q) (heach : q.slots.Each Q) : Upheld start Q q :=
  ⟨hlater.wellFormed, Nat.le_trans h.start_le hlater.nextId_le, heach⟩

theorem Lasting.kept {σ : Type} [Storage σ] {start : Nat} {Q : Flight → Prop}
    (h : Lasting σ start Q) :
    Kept fun p (_ : Context σ) => Upheld start Q p where
  counts {p} context clock running hp :=
    hp.of_later ((later_kept p).counts context clock running (.refl hp.wellFormed)) hp.each
  commitStage {p context} hp := hp.of_later ((later_kept p).commitStage (.refl hp.wellFormed))
    (each_commitStage hp.wellFormed hp.each context fun _ _ _ hQ => h.commit hQ context)
  accessStage {p context} hp := hp.of_later ((later_kept p).accessStage (.refl hp.wellFormed))
    (each_accessStage hp.wellFormed hp.each context fun _ _ _ hQ => h.access hQ context)
  executeStage {p p' context} hp hresult :=
    hp.of_later ((later_kept p).executeStage (.refl hp.wellFormed) hresult)
    (each_executeStage hp.wellFormed hp.each hresult fun _ _ _ hfits hstage hready hdone hQ =>
      h.execute hfits hstage hready hdone hQ)
  decodeStage {p} context hp :=
    hp.of_later ((later_kept p).decodeStage context (.refl hp.wellFormed))
    (each_decodeStage hp.each fun _ others hQ => h.decode others hQ)
  fetchStage {p context} hp := hp.of_later ((later_kept p).fetchStage (.refl hp.wellFormed))
    (each_fetchStage hp.wellFormed hp.each context fun _ _ hfits hstage hready hQ =>
      h.fetch hfits hstage hready hQ context)
  advance {p} context hp := hp.of_later ((later_kept p).advance context (.refl hp.wellFormed))
    (each_advance hp.wellFormed hp.each (fun _ _ _ _ hQ => h.complete hQ) fun _ stage _ _ hQ =>
      h.enter stage hQ)
  takeIn {p} context hp := by
    refine hp.of_later ((later_kept p).takeIn context (.refl hp.wellFormed)) ?_
    rcases p.takeIn_cases with hsame | ⟨-, -, -, htaken⟩
    · rw [hsame]
      exact hp.each
    · rw [htaken]
      exact hp.each.put .fetch (h.fresh p.nextId hp.start_le)

end Pipeline

end PipelinedProcessor
