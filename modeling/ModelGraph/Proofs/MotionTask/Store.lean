import ModelGraph.Proofs.Except
import ModelGraph.Proofs.MotionTask.Template

/-!
# Tasks in a store

Storing motion control tasks changes the definitions under the identities that are answered, and
nothing else. The identity of a task has the version that the caller asks for and everything else
from the template, so the template itself is safe unless a caller asks for the version that the
template is kept under.

- `Stored`: all that a call can do to a store in memory.
- `storeAll`: calls one after the other.
- `storeAll_definition`, `storeAll_version`: what calls keep, and which identities they answer.
- `storeAll_keeps`: what this means for the template and for the tasks.
-/

namespace ModelGraph.MotionTask

/-! ## One call -/

/-- What a call can do to a store: it fails and changes no definition, or it answers an
identity, with the version that was asked for, and sets the definition under this identity
to one that is made from the template. The count of fetches changes in any case, so it is
said of the definitions only. -/
inductive Stored (s : MemoryStore) (name graphFile : String) :
    Except StoreError ComponentId × MemoryStore → Prop where
  | failed {e : StoreError} {s' : MemoryStore} (hkept : s'.definitions = s.definitions) :
      Stored s name graphFile (.error e, s')
  | made {id : ComponentId} {task : Tree} {s' : MemoryStore} (hversion : id.version = name)
      (htask : ofTemplate (s.definition templateId) name graphFile = .ok task)
      (hset : s'.definitions = s.definitions.set id task) :
      Stored s name graphFile (.ok id, s')

/-- A definition that declares an identity declares the version of its first version. -/
theorem version_of_ofDefinition {definition version : Tree} {id : ComponentId} {name : String}
    (h : ComponentId.ofDefinition definition = .ok id)
    (hversion : definition.firstVersion? = some version)
    (hname : version.field? "name" = some (.text name)) : id.version = name := by
  have htext : (definition.firstVersion?.bind (·.field? "name")).bind Tree.text? = some name := by
    rw [hversion, Option.bind_some, hname]
    rfl
  -- the domain and the name have been found, so the version is what is left
  obtain ⟨domain, -, h⟩ := bind_eq_ok.mp h
  obtain ⟨declared, -, h⟩ := bind_eq_ok.mp h
  rw [htext] at h
  cases h
  rfl

/-- A call does no more than this: it stores the task that it has made, or it fails and leaves the
store as it was. -/
theorem store_stored (s : MemoryStore) (name graphFile : String) :
    Stored s name graphFile (store s name graphFile) := by
  have hfetch : ModelStore.fetch s templateId =
      (.ok (s.definition templateId), { s with fetches := s.fetches + 1 }) := rfl
  unfold store definition
  rw [hfetch]
  dsimp only
  cases htask : ofTemplate (s.definition templateId) name graphFile with
  | error e => exact .failed rfl
  | ok task =>
    have hput : ∀ s : MemoryStore, ModelStore.put s task = s.put task := fun _ => rfl
    simp only [hput, MemoryStore.put]
    cases hid : ComponentId.ofDefinition task with
    | error e => exact .failed rfl
    | ok id =>
      -- a task is only made where the template has a first version
      obtain ⟨first, others, version, defaults, data, hmade⟩ := madeFrom_of_ofTemplate htask
      have hfirst := firstVersion?_eq_some_iff.mpr ⟨others, hmade.task_versions⟩
      exact .made (version_of_ofDefinition hid hfirst hmade.name_eq) htask rfl

namespace Stored

variable {s s' : MemoryStore} {name graphFile : String} {id other : ComponentId}

/-- A call that fails changes no definition. -/
theorem definition_of_error {e : StoreError} (h : Stored s name graphFile (.error e, s'))
    (id : ComponentId) : s'.definition id = s.definition id := by
  cases h with
  | failed hkept => rw [MemoryStore.definition, MemoryStore.definition, hkept]

/-- The identity that is answered has the new definition, and all others have what they had. -/
theorem definition_of_ok (h : Stored s name graphFile (.ok id, s')) :
    id.version = name ∧
      ofTemplate (s.definition templateId) name graphFile = .ok (s'.definition id) ∧
      ∀ other ≠ id, s'.definition other = s.definition other := by
  cases h with
  | @made _ task _ hversion htask hset =>
    -- putting the task in changes what is found under its identity alone
    have hget : ∀ other, s'.definition other = if other = id then task else s.definition other := by
      intro other
      rw [MemoryStore.definition, hset, Table.get?_set]
      split <;> rfl
    refine ⟨hversion, ?_, fun other hother => ?_⟩
    · rw [hget, if_pos rfl]
      exact htask
    · rw [hget, if_neg hother]

/-- What is not answered is kept. -/
theorem definition_of_ne {answer : Except StoreError ComponentId}
    (h : Stored s name graphFile (answer, s')) (hid : answer ≠ .ok id) :
    s'.definition id = s.definition id := by
  -- a call that fails changes nothing, and one that succeeds changes what it answers
  cases answer with
  | error e => exact h.definition_of_error id
  | ok made => exact h.definition_of_ok.2.2 id fun heq => hid (heq ▸ rfl)

end Stored

/-! ## Calls one after the other -/

/-- A call that stores a task. -/
structure TaskCall where
  version : String
  graphFile : String

/-- A call on a store. -/
def TaskCall.run (call : TaskCall) (s : MemoryStore) :
    Except StoreError ComponentId × MemoryStore :=
  store s call.version call.graphFile

/-- What calls answer one after the other, and the store after them. -/
def storeAll (s : MemoryStore) : List TaskCall → List (Except StoreError ComponentId) × MemoryStore
  | [] => ([], s)
  | call :: rest =>
    let answered := call.run s
    let others := storeAll answered.2 rest
    (answered.1 :: others.1, others.2)

/-- So it is for every call of a series. -/
theorem TaskCall.run_stored (call : TaskCall) (s : MemoryStore) :
    Stored s call.version call.graphFile ((call.run s).1, (call.run s).2) :=
  store_stored s call.version call.graphFile

/-- Some calls and then others. -/
theorem storeAll_append (s : MemoryStore) (calls calls' : List TaskCall) :
    storeAll s (calls ++ calls') =
      ((storeAll s calls).1 ++ (storeAll (storeAll s calls).2 calls').1,
        (storeAll (storeAll s calls).2 calls').2) := by
  induction calls generalizing s with
  | nil => rfl
  | cons call rest ih =>
    rw [List.cons_append, storeAll, ih]
    rfl

/-- An identity that no call answers keeps its definition. -/
theorem storeAll_definition (s : MemoryStore) (calls : List TaskCall) {id : ComponentId}
    (h : .ok id ∉ (storeAll s calls).1) : (storeAll s calls).2.definition id = s.definition id := by
  induction calls generalizing s with
  | nil => rfl
  | cons call rest ih =>
    rw [storeAll] at h
    obtain ⟨hfirst, hrest⟩ := not_or.mp fun hmem => h (List.mem_cons.mpr hmem)
    -- the first call answers another identity, and so do the others
    exact (ih (call.run s).2 hrest).trans ((call.run_stored s).definition_of_ne (Ne.symm hfirst))

/-- Every identity that is answered has the version of a call. -/
theorem storeAll_version (s : MemoryStore) (calls : List TaskCall) {id : ComponentId}
    (h : .ok id ∈ (storeAll s calls).1) : ∃ call ∈ calls, id.version = call.version := by
  induction calls generalizing s with
  | nil => cases h
  | cons call rest ih =>
    rw [storeAll] at h
    -- the answer belongs to the first call or to one of the others
    rcases List.mem_cons.mp h with hfirst | hrest
    · have hstored := call.run_stored s
      rw [← hfirst] at hstored
      exact ⟨call, List.mem_cons_self, hstored.definition_of_ok.1⟩
    · obtain ⟨call', hmem, hversion⟩ := ih _ hrest
      exact ⟨call', List.mem_cons_of_mem _ hmem, hversion⟩

/-- **Storing tasks changes the definitions under the identities that are answered, and nothing
else.** A call that fails changes no definition. A call that succeeds answers an identity with the
version that it was given, under which the new definition can be fetched then, and also after all
calls if no later one answers the same identity. The template is what it was before, as long as no
call asks for the version that the template is kept under. -/
theorem storeAll_keeps (s : MemoryStore) (calls : List TaskCall) :
    (∀ id, .ok id ∉ (storeAll s calls).1 → (storeAll s calls).2.definition id = s.definition id) ∧
      ((∀ call ∈ calls, call.version ≠ templateId.version) →
        (storeAll s calls).2.definition templateId = s.definition templateId) ∧
      ∀ before call rest, calls = before ++ call :: rest →
        let s₁ := (storeAll s before).2
        let answered := call.run s₁
        (∀ e, answered.1 = .error e → ∀ id, answered.2.definition id = s₁.definition id) ∧
        ∀ id, answered.1 = .ok id →
          id.version = call.version ∧
          ofTemplate (s₁.definition templateId) call.version call.graphFile =
            .ok (answered.2.definition id) ∧
          (∀ other ≠ id, answered.2.definition other = s₁.definition other) ∧
          (.ok id ∉ (storeAll answered.2 rest).1 →
            (storeAll s calls).2.definition id = answered.2.definition id) := by
  refine ⟨fun id h => storeAll_definition s calls h, fun hversions => ?_, ?_⟩
  · -- whoever answers the identity of the template has been asked for its version
    refine storeAll_definition s calls fun hmem => ?_
    obtain ⟨call, hcall, hversion⟩ := storeAll_version s calls hmem
    exact hversions call hcall hversion.symm
  · rintro before call rest rfl s₁ answered
    have hstored : Stored s₁ call.version call.graphFile (answered.1, answered.2) :=
      call.run_stored s₁
    -- the other calls begin with the store that this one leaves
    have hlast : (storeAll s (before ++ call :: rest)).2 = (storeAll answered.2 rest).2 := by
      rw [storeAll_append]
      rfl
    refine ⟨fun e he => ?_, fun id hid => ?_⟩
    · rw [he] at hstored
      exact hstored.definition_of_error
    · rw [hid] at hstored
      obtain ⟨hversion, htask, hothers⟩ := hstored.definition_of_ok
      refine ⟨hversion, htask, hothers, fun hnot => ?_⟩
      rw [hlast]
      exact storeAll_definition answered.2 rest hnot

/-! ## Tasks from a template -/

/-- A store with a template, and with another definition. -/
def walkStore : MemoryStore :=
  (MemoryStore.empty.insert templateId walkTemplate).insert ⟨"software", "camera", "v1"⟩ walkVersion

/-- The version of the task whose identity differs from that of the template in
the version alone. -/
def walkId (version : String) : ComponentId := { templateId with version }

/-- Two tasks are stored. -/
def walkCalls : List TaskCall := [⟨"v2", "walk.yml"⟩, ⟨"v3", "run.yml"⟩]

/-- Both tasks are answered, and the template and the other definition are what they were. -/
theorem walkStore_keeps :
    let after := (storeAll walkStore walkCalls).2
    (storeAll walkStore walkCalls).1 = [.ok (walkId "v2"), .ok (walkId "v3")] ∧
      (∀ call ∈ walkCalls, call.version ≠ templateId.version) ∧
      after.definition templateId = walkTemplate ∧
      after.definition ⟨"software", "camera", "v1"⟩ = walkVersion ∧
      ofTemplate walkTemplate "v2" "walk.yml" = .ok (after.definition (walkId "v2")) := by
  have hanswers : (storeAll walkStore walkCalls).1 = [.ok (walkId "v2"), .ok (walkId "v3")] := rfl
  have hversions : ∀ call ∈ walkCalls, call.version ≠ templateId.version := by decide
  obtain ⟨hkept, htemplate, hcalls⟩ := storeAll_keeps walkStore walkCalls
  have hcamera : .ok ⟨"software", "camera", "v1"⟩ ∉ (storeAll walkStore walkCalls).1 := by
    rw [hanswers]
    simp [walkId, templateId]
  refine ⟨hanswers, hversions, htemplate hversions, hkept _ hcamera, ?_⟩
  obtain ⟨hfirst, hsecond⟩ := List.cons.inj hanswers
  -- the second call answers another identity than the first one
  have hother : .ok (walkId "v2") ∉
      (storeAll (TaskCall.run ⟨"v2", "walk.yml"⟩ walkStore).2 [⟨"v3", "run.yml"⟩]).1 := by
    rw [hsecond]
    simp [walkId]
  obtain ⟨-, hanswer⟩ := hcalls [] ⟨"v2", "walk.yml"⟩ [⟨"v3", "run.yml"⟩] rfl
  obtain ⟨-, htask, -, hlast⟩ := hanswer (walkId "v2") hfirst
  rw [hlast hother]
  exact htask

/-- A task with the version of the template takes the place of the template. -/
theorem walkStore_template_lost :
    (store walkStore templateId.version "walk.yml").1 = .ok templateId ∧
      walkStore.definition templateId = walkTemplate ∧
      (store walkStore templateId.version "walk.yml").2.definition templateId ≠ walkTemplate :=
  ⟨rfl, rfl, by decide +kernel⟩

end ModelGraph.MotionTask
