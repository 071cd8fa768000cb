import PipelinedProcessor.Machine.Run
import PipelinedProcessor.Proofs.Cache.LiveStorage
import PipelinedProcessor.Proofs.Cache.Loading

namespace PipelinedProcessor

open LawfulStorage LiveStorage

-- The memory that a mode works on, as a part of the cache and what is behind it. In good order it
-- is all there is to see.
structure Port (σ : Type) [Storage σ] [LawfulStorage σ] [LiveStorage σ] where
  mode : MemoryMode
  get : Cache → σ
  set : Cache → σ → Cache
  Good : Cache → Prop
  get_set : ∀ cache memory, get (set cache memory) = memory
  sound : ∀ {cache}, Good cache → Sound (get cache)
  view_eq : ∀ {cache}, Good cache → view (get cache) = cache.view
  capacity_eq : ∀ cache, LawfulStorage.capacity (get cache) = cache.memory.capacity
  owner_eq : ∀ {cache}, cache.memory.pending = none → owner (get cache) = none
  good_set : ∀ {cache memory}, Good cache → Sound memory → Good (set cache memory)
  good_empty : ∀ {ways}, 0 < ways → ∀ writeAllocate memory, Good (.empty ways writeAllocate memory)
  good_release : ∀ {cache}, Good cache → Good cache.releaseAll
  good_load : ∀ {cache}, Good cache → ∀ tries start words,
    Good (Machine.loadFrom tries start 0 words cache.releaseAll).2
  cycle_eq : ∀ {machine : Machine} {answer p context}, machine.mode = mode →
    machine.pipeline.step ⟨machine.registers, machine.vectors, get machine.cache⟩ =
      (answer, p, context) →
    machine.cycle = (answer, { machine with
      registers := context.registers
      vectors := context.vectors
      pipeline := p
      cache := set machine.cache context.memory })

namespace Cache

-- The view stays while what memory is busy with is forgotten.
theorem Coherent.releaseAll {cache : Cache} (h : Coherent cache) :
    Coherent cache.releaseAll ∧ cache.releaseAll.view = cache.view := by
  have hpresents := (h.shows.of_same cache.sameLines_releaseAll).presents_view
  exact ⟨hpresents.coherent, hpresents.view_eq⟩

-- The cache itself.
def port : Port Cache where
  mode := .cache
  get cache := cache
  set _ cache := cache
  Good := Coherent
  get_set _ _ := rfl
  sound h := h
  view_eq _ := rfl
  capacity_eq _ := rfl
  owner_eq hidle := MainMemory.owner_eq_none.mpr hidle
  good_set _ h := h
  good_empty hways writeAllocate memory := coherent_empty hways writeAllocate memory
  good_release h := h.releaseAll.1
  good_load {cache} h _ _ _ := h.releaseAll.1.loadFrom cache.reservation_releaseAll rfl
  cycle_eq {machine answer p context} hmode hstep := by
    obtain ⟨config, mode, registers, vectors, pipeline, listening, reports, cache⟩ := machine
    obtain rfl : mode = .cache := hmode
    simp only [Machine.cycle, hstep]

end Cache

namespace MainMemory

-- Main memory, which can do without a cache that has no good line.
def port : Port MainMemory where
  mode := .direct
  get := Cache.memory
  set cache memory := { cache with memory := memory }
  Good cache := ∀ line way, (cache.lineAt line way).valid = false
  get_set _ _ := rfl
  sound _ := trivial
  view_eq h := (Cache.view_of_invalid h).symm
  capacity_eq _ := rfl
  owner_eq hidle := MainMemory.owner_eq_none.mpr hidle
  good_set h _ := h
  good_empty _ writeAllocate memory line way := by
    rw [Cache.lineAt_empty]
    rfl
  good_release h := h
  good_load {cache} h tries start words := by
    have hreleased : ∀ line way, (cache.releaseAll.lineAt line way).valid = false := h
    exact Cache.invalid_loadFrom hreleased tries start 0 words
  cycle_eq {machine answer p context} hmode hstep := by
    obtain ⟨config, mode, registers, vectors, pipeline, listening, reports, cache⟩ := machine
    obtain rfl : mode = .direct := hmode
    simp only [Machine.cycle, Cache.onMemory_eq, hstep]

end MainMemory

end PipelinedProcessor
