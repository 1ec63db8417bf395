import OLog.Lib.Xml
import OLog.Ownership

/-!
From the configuration file to the running threads. The loader goes through
the document by position: consumers and producers, in each the list of topics
and two lists of settings. It checks for absent elements on the upper levels
only, and `main` takes a second producer and a first topic of each producer
for granted.
-/

namespace OLog.Startup

open Lib

/-- How the start can come to an end: by undefined behaviour, or orderly with a
message. -/
inductive Stop where
  | nullElement
  | nullText
  | outOfRange
  | exit (status : Nat) (message : String)
  deriving DecidableEq, Repr

inductive ConfType where
  | global
  | topic
  deriving DecidableEq, Repr

/-- `RdKafka::Conf`, by the settings made, in order. -/
structure KafkaConf where
  type : ConfType
  settings : List (String × String)
  deriving DecidableEq, Repr

structure HandlerConf where
  globalConf : KafkaConf
  topicConf : KafkaConf
  topics : List String
  deriving DecidableEq, Repr

/-- A member function of an element is called. -/
def follow : Option XmlElement → Except Stop XmlElement
  | none => throw .nullElement
  | some e => pure e

/-- A string is made of a text. -/
def asString : Option String → Except Stop String
  | none => throw .nullText
  | some text => pure text

def loadTopicList : Option XmlElement → Except Stop (List String)
  | none => pure []
  | some topicList => topicList.childElements.mapM (fun topic => asString topic.getText)

/-- The body of the loop over the entries of a list of settings. C++ leaves open
which of the two arguments of `set` is evaluated first. -/
def loadEntry (entry : XmlElement) : Except Stop (String × String) := do
  let key ← follow entry.firstChildElement
  let value ← follow key.nextSiblingElement
  let keyText ← asString key.getText
  let valueText ← asString value.getText
  pure (keyText, valueText)

/-- The two functions for lists of settings differ in the type only. -/
def loadConf (type : ConfType) : Option XmlElement → Except Stop KafkaConf
  | none => pure ⟨type, []⟩
  | some confList => do
      let settings ← confList.childElements.mapM loadEntry
      pure ⟨type, settings⟩

def loadGlobalConf : Option XmlElement → Except Stop KafkaConf := loadConf .global

def loadTopicConf : Option XmlElement → Except Stop KafkaConf := loadConf .topic

def loadHandlerConf (handler : XmlElement) : Except Stop HandlerConf := do
  let topicList := handler.firstChildElement
  let globalConfList := topicList.bind XmlElement.nextSiblingElement
  let topicConfList := globalConfList.bind XmlElement.nextSiblingElement
  let topics ← loadTopicList topicList
  let globalConf ← loadGlobalConf globalConfList
  let topicConf ← loadTopicConf topicConfList
  pure ⟨globalConf, topicConf, topics⟩

/-- The loop over the handlers of one kind. -/
def loadHandlers : Option XmlElement → Except Stop (List HandlerConf)
  | none => pure []
  | some handlers => handlers.childElements.mapM loadHandlerConf

/-- `ConfLoader::load`; there is no document if the file cannot be loaded. -/
def load : Option (List XmlNode) → Except Stop (List HandlerConf × List HandlerConf)
  | none => pure ([], [])
  | some document => do
      let root := firstElement document
      let consumers := root.bind XmlElement.firstChildElement
      let producers := consumers.bind XmlElement.nextSiblingElement
      let consumerConfs ← loadHandlers consumers
      let producerConfs ← loadHandlers producers
      pure (consumerConfs, producerConfs)

/-- What the library answers; a refusal comes with a text. -/
structure Kafka where
  createConsumer : KafkaConf → KafkaConf → Except String Unit
  subscribe : List String → Except String Unit
  createProducer : KafkaConf → Except String Unit
  createTopic : String → KafkaConf → Except String Unit

def orExit (message : String) : Except String Unit → Except Stop Unit
  | .ok () => pure ()
  | .error errstr => throw (.exit 1 (message ++ errstr))

/-- `vector::operator[]` -/
def index {α : Type} (items : List α) (i : Nat) : Except Stop α :=
  match items[i]? with
  | some item => pure item
  | none => throw .outOfRange

/-- `EventLoop::setMyConsumer`, with the constructor and `subscribe` of
`MyConsumer`: the topics subscribed to. -/
def setMyConsumer (kafka : Kafka) (conf : HandlerConf) : Except Stop (List String) := do
  orExit "Failed to create consumer: " (kafka.createConsumer conf.globalConf conf.topicConf)
  orExit ("Failed to subscribe to " ++ toString conf.topics.length ++ " topics: ")
    (kafka.subscribe conf.topics)
  pure conf.topics

/-- `MyProducer::MyProducer`: the topic produced to. -/
def myProducer (kafka : Kafka) (conf : HandlerConf) : Except Stop String := do
  orExit "Failed to create producer: " (kafka.createProducer conf.globalConf)
  let topic ← index conf.topics 0
  orExit "Failed to create topic: " (kafka.createTopic topic conf.topicConf)
  pure topic

/-- What the threads start with. -/
structure Started where
  eventLoop : EventLoop
  subscribed : List String
  topic : String
  backupTopic : String

def main (kafka : Kafka) (document : Option (List XmlNode)) : Except Stop Started := do
  let (consumers, producers) ← load document
  if consumers.length = 0 ∨ producers.length = 0 then
    throw (.exit 1 "Load Conf Error.")
  else do
    let consumer ← index consumers 0
    let subscribed ← setMyConsumer kafka consumer
    let producer ← index producers 0
    let topic ← myProducer kafka producer
    let backuper ← index producers 1
    let backupTopic ← myProducer kafka backuper
    pure ⟨EventLoop.start EventLoop.mainProcessors, subscribed, topic, backupTopic⟩

/-- The elements of a list that may be absent. -/
def listed : Option XmlElement → List XmlElement
  | none => []
  | some list => list.childElements

def topicElements (handler : XmlElement) : List XmlElement := listed handler.firstChildElement

def globalEntries (handler : XmlElement) : List XmlElement :=
  listed (handler.firstChildElement.bind XmlElement.nextSiblingElement)

def topicEntries (handler : XmlElement) : List XmlElement :=
  listed ((handler.firstChildElement.bind XmlElement.nextSiblingElement).bind
    XmlElement.nextSiblingElement)

def consumersOf (document : List XmlNode) : List XmlElement :=
  listed ((firstElement document).bind XmlElement.firstChildElement)

def producersOf (document : List XmlNode) : List XmlElement :=
  listed (((firstElement document).bind XmlElement.firstChildElement).bind
    XmlElement.nextSiblingElement)

/-- The entry has a key and, behind it, a value, both with a text. -/
def CompleteEntry (entry : XmlElement) : Prop :=
  ∃ key value, entry.firstChildElement = some key ∧ key.nextSiblingElement = some value ∧
    key.getText.isSome ∧ value.getText.isSome

structure CompleteHandler (handler : XmlElement) : Prop where
  topics : ∀ topic ∈ topicElements handler, topic.getText.isSome
  globalConf : ∀ entry ∈ globalEntries handler, CompleteEntry entry
  topicConf : ∀ entry ∈ topicEntries handler, CompleteEntry entry

/-- All handlers are complete, and if there are any of both kinds, there are two
producers, the first two of which have a topic. -/
structure CompleteDocument (document : List XmlNode) : Prop where
  handlers : ∀ handler ∈ consumersOf document ++ producersOf document, CompleteHandler handler
  producers : consumersOf document = [] ∨ producersOf document = [] ∨
    ∃ first second rest, producersOf document = first :: second :: rest ∧
      topicElements first ≠ [] ∧ topicElements second ≠ []

theorem exists_asString_iff {text : Option String} :
    (∃ string, asString text = .ok string) ↔ text.isSome := by
  cases text with
  | none => exact iff_of_false (fun ⟨_, h⟩ => by cases h) (by simp)
  | some string => exact iff_of_true ⟨string, rfl⟩ rfl

theorem follow_eq_ok {element : Option XmlElement} {e : XmlElement} :
    follow element = .ok e ↔ element = some e := by
  cases element with
  | none => exact iff_of_false (fun h => by cases h) (by simp)
  | some found => exact ⟨fun h => congrArg some (Except.ok.inj h), fun h => by cases h; rfl⟩

theorem loadTopicList_eq (topicList : Option XmlElement) : loadTopicList topicList =
    (listed topicList).mapM (fun topic => asString topic.getText) := by
  cases topicList <;> rfl

theorem loadHandlers_eq (handlers : Option XmlElement) : loadHandlers handlers =
    (listed handlers).mapM loadHandlerConf := by
  cases handlers <;> rfl

theorem loadConf_eq (type : ConfType) (confList : Option XmlElement) :
    loadConf type confList =
      (listed confList).mapM loadEntry >>= fun settings => pure ⟨type, settings⟩ := by
  cases confList <;> rfl

theorem exists_loadEntry_iff {entry : XmlElement} :
    (∃ setting, loadEntry entry = .ok setting) ↔ CompleteEntry entry := by
  unfold loadEntry CompleteEntry
  simp only [bind_eq_ok, follow_eq_ok, ← exists_asString_iff]
  constructor
  · rintro ⟨_, key, hkey, value, hvalue, keyText, hkeyText, valueText, hvalueText, _⟩
    exact ⟨key, value, hkey, hvalue, ⟨keyText, hkeyText⟩, valueText, hvalueText⟩
  · rintro ⟨key, value, hkey, hvalue, ⟨keyText, hkeyText⟩, valueText, hvalueText⟩
    exact ⟨_, key, hkey, value, hvalue, keyText, hkeyText, valueText, hvalueText, rfl⟩

theorem exists_loadConf_iff (type : ConfType) {confList : Option XmlElement} :
    (∃ conf, loadConf type confList = .ok conf) ↔
      ∀ entry ∈ listed confList, CompleteEntry entry := by
  simp only [loadConf_eq, bind_eq_ok, ← exists_loadEntry_iff, ← exists_mapM_eq_ok]
  constructor
  · rintro ⟨_, settings, hsettings, _⟩
    exact ⟨settings, hsettings⟩
  · rintro ⟨settings, hsettings⟩
    exact ⟨_, settings, hsettings, rfl⟩

theorem exists_loadHandlerConf_iff {handler : XmlElement} :
    (∃ conf, loadHandlerConf handler = .ok conf) ↔ CompleteHandler handler := by
  unfold loadHandlerConf
  simp only [bind_eq_ok, loadTopicList_eq]
  constructor
  · rintro ⟨_, topics, htopics, globalConf, hglobal, topicConf, htopicConf, _⟩
    exact ⟨fun topic htopic => exists_asString_iff.mp
        (exists_mapM_eq_ok.mp ⟨topics, htopics⟩ topic htopic),
      (exists_loadConf_iff .global).mp ⟨globalConf, hglobal⟩,
      (exists_loadConf_iff .topic).mp ⟨topicConf, htopicConf⟩⟩
  · intro h
    obtain ⟨topics, htopics⟩ := exists_mapM_eq_ok.mpr
      (fun topic htopic => exists_asString_iff.mpr (h.topics topic htopic))
    obtain ⟨globalConf, hglobal⟩ := (exists_loadConf_iff .global).mpr h.globalConf
    obtain ⟨topicConf, htopicConf⟩ := (exists_loadConf_iff .topic).mpr h.topicConf
    exact ⟨_, topics, htopics, globalConf, hglobal, topicConf, htopicConf, rfl⟩

/-- As many topics are loaded as there are elements for them. -/
theorem length_topics {handler : XmlElement} {conf : HandlerConf}
    (h : loadHandlerConf handler = .ok conf) :
    conf.topics.length = (topicElements handler).length := by
  unfold loadHandlerConf at h
  simp only [bind_eq_ok, loadTopicList_eq] at h
  obtain ⟨topics, htopics, globalConf, _, topicConf, _, hconf⟩ := h
  cases Except.ok.inj hconf
  exact (mapM_eq_ok.mp htopics).length_eq.symm

theorem load_eq_ok {document : List XmlNode} {confs : List HandlerConf × List HandlerConf} :
    load (some document) = .ok confs ↔
      List.Forall₂ (fun handler conf => loadHandlerConf handler = .ok conf)
          (consumersOf document) confs.1 ∧
        List.Forall₂ (fun handler conf => loadHandlerConf handler = .ok conf)
          (producersOf document) confs.2 := by
  obtain ⟨consumerConfs, producerConfs⟩ := confs
  simp only [load, bind_eq_ok, loadHandlers_eq, mapM_eq_ok]
  constructor
  · rintro ⟨consumers, hconsumers, producers, hproducers, hconfs⟩
    cases Except.ok.inj hconfs
    exact ⟨hconsumers, hproducers⟩
  · rintro ⟨hconsumers, hproducers⟩
    exact ⟨_, hconsumers, _, hproducers, rfl⟩

theorem exists_load_iff {document : List XmlNode} :
    (∃ confs, load (some document) = .ok confs) ↔
      ∀ handler ∈ consumersOf document ++ producersOf document, CompleteHandler handler := by
  simp only [load_eq_ok, ← mapM_eq_ok, List.forall_mem_append, ← exists_loadHandlerConf_iff,
    ← exists_mapM_eq_ok, Prod.exists, exists_and_left, exists_and_right]

/-- The start ends with its result or orderly. -/
def Safe {α : Type} : Except Stop α → Prop
  | .ok _ => True
  | .error (.exit _ _) => True
  | .error _ => False

theorem safe_bind_iff {α β : Type} {x : Except Stop α} {f : α → Except Stop β} :
    Safe (x >>= f) ↔ Safe x ∧ ∀ a, x = .ok a → Safe (f a) := by
  cases x with
  | ok a =>
      constructor
      · intro h
        exact ⟨trivial, fun _ heq => Except.ok.inj heq ▸ h⟩
      · rintro ⟨_, h⟩
        exact h a rfl
  | error stop =>
      have hsame : Safe ((.error stop : Except Stop α) >>= f) ↔
          Safe (.error stop : Except Stop α) := by
        cases stop <;> exact Iff.rfl
      rw [hsame]
      exact ⟨fun h => ⟨h, fun _ heq => by cases heq⟩, fun h => h.1⟩

theorem index_eq_ok {α : Type} {items : List α} {i : Nat} {item : α} :
    index items i = .ok item ↔ items[i]? = some item := by
  unfold index
  cases items[i]? with
  | none => exact iff_of_false (fun h => by cases h) (by simp)
  | some found => exact ⟨fun h => congrArg some (Except.ok.inj h), fun h => by cases h; rfl⟩

theorem safe_index_iff {α : Type} {items : List α} {i : Nat} :
    Safe (index items i) ↔ i < items.length := by
  unfold index
  cases hitem : items[i]? with
  | none =>
      rw [List.getElem?_eq_none_iff] at hitem
      exact iff_of_false id (by omega)
  | some item =>
      obtain ⟨hlt, _⟩ := List.getElem?_eq_some_iff.mp hitem
      exact iff_of_true trivial hlt

theorem safe_orExit (message : String) (answer : Except String Unit) :
    Safe (orExit message answer) := by
  cases answer <;> trivial

theorem safe_setMyConsumer (kafka : Kafka) (conf : HandlerConf) :
    Safe (setMyConsumer kafka conf) := by
  unfold setMyConsumer
  refine safe_bind_iff.mpr ⟨safe_orExit _ _, fun _ _ => ?_⟩
  exact safe_bind_iff.mpr ⟨safe_orExit _ _, fun _ _ => trivial⟩

theorem safe_myProducer (kafka : Kafka) {conf : HandlerConf} (h : conf.topics ≠ []) :
    Safe (myProducer kafka conf) := by
  unfold myProducer
  refine safe_bind_iff.mpr ⟨safe_orExit _ _, fun _ _ => ?_⟩
  refine safe_bind_iff.mpr ⟨safe_index_iff.mpr (List.length_pos_iff.mpr h), fun _ _ => ?_⟩
  exact safe_bind_iff.mpr ⟨safe_orExit _ _, fun _ _ => trivial⟩

/-- A library that refuses nothing. -/
def accepting : Kafka where
  createConsumer _ _ := .ok ()
  subscribe _ := .ok ()
  createProducer _ := .ok ()
  createTopic _ _ := .ok ()

theorem myProducer_accepting (conf : HandlerConf) :
    myProducer accepting conf = index conf.topics 0 := by
  unfold myProducer
  change index conf.topics 0 >>= pure = _
  cases index conf.topics 0 <;> rfl

/-- The loaded configuration suffices. -/
def Sufficient (consumers producers : List HandlerConf) : Prop :=
  consumers = [] ∨ producers = [] ∨
    ∃ first second rest, producers = first :: second :: rest ∧ first.topics ≠ [] ∧
      second.topics ≠ []

theorem safe_main_of_sufficient (kafka : Kafka) {document : Option (List XmlNode)}
    {consumers producers : List HandlerConf} (hload : load document = .ok (consumers, producers))
    (h : Sufficient consumers producers) : Safe (main kafka document) := by
  unfold main
  rw [hload, ok_bind]
  dsimp only
  split_ifs with hempty
  · trivial
  · push Not at hempty
    obtain ⟨hconsumers, hproducers⟩ := hempty
    rcases h with rfl | rfl | ⟨first, second, rest, rfl, hfirst, hsecond⟩
    · exact absurd rfl hconsumers
    · exact absurd rfl hproducers
    · refine safe_bind_iff.mpr ⟨safe_index_iff.mpr (Nat.pos_of_ne_zero hconsumers), ?_⟩
      intro consumer _
      refine safe_bind_iff.mpr ⟨safe_setMyConsumer kafka consumer, fun _ _ => ?_⟩
      refine safe_bind_iff.mpr ⟨trivial, ?_⟩
      rintro _ ⟨⟩
      refine safe_bind_iff.mpr ⟨safe_myProducer kafka hfirst, fun _ _ => ?_⟩
      refine safe_bind_iff.mpr ⟨trivial, ?_⟩
      rintro _ ⟨⟩
      exact safe_bind_iff.mpr ⟨safe_myProducer kafka hsecond, fun _ _ => trivial⟩

theorem sufficient_of_safe_main {document : Option (List XmlNode)}
    {consumers producers : List HandlerConf} (hload : load document = .ok (consumers, producers))
    (h : Safe (main accepting document)) : Sufficient consumers producers := by
  unfold main at h
  rw [hload, ok_bind] at h
  cases consumers with
  | nil => exact Or.inl rfl
  | cons consumer consumers =>
      cases producers with
      | nil => exact Or.inr (Or.inl rfl)
      | cons first producers =>
          dsimp only at h
          rw [if_neg (by simp)] at h
          -- both indices and both topics are looked up, whatever else happens
          obtain ⟨_, h⟩ := safe_bind_iff.mp h
          obtain ⟨_, h⟩ := safe_bind_iff.mp (h consumer rfl)
          obtain ⟨_, h⟩ := safe_bind_iff.mp (h consumer.topics rfl)
          obtain ⟨hfirst, h⟩ := safe_bind_iff.mp (h first rfl)
          rw [myProducer_accepting] at hfirst
          have hlength := safe_index_iff.mp hfirst
          obtain ⟨topic, htopic⟩ : ∃ topic, myProducer accepting first = .ok topic := by
            simp only [myProducer_accepting, index_eq_ok]
            exact ⟨_, List.getElem?_eq_getElem hlength⟩
          obtain ⟨hsecond, h⟩ := safe_bind_iff.mp (h topic htopic)
          cases producers with
          | nil => exact absurd (safe_index_iff.mp hsecond) (by simp)
          | cons second rest =>
              obtain ⟨hbackup, _⟩ := safe_bind_iff.mp (h second rfl)
              rw [myProducer_accepting] at hbackup
              exact Or.inr (Or.inr ⟨first, second, rest, rfl, List.length_pos_iff.mp hlength,
                List.length_pos_iff.mp (safe_index_iff.mp hbackup)⟩)

/-- What was loaded suffices exactly if the document does. -/
theorem sufficient_iff {document : List XmlNode} {consumers producers : List HandlerConf}
    (hload : load (some document) = .ok (consumers, producers)) :
    Sufficient consumers producers ↔
      consumersOf document = [] ∨ producersOf document = [] ∨
        ∃ first second rest, producersOf document = first :: second :: rest ∧
          topicElements first ≠ [] ∧ topicElements second ≠ [] := by
  obtain ⟨hconsumers, hproducers⟩ := load_eq_ok.mp hload
  have hnone : ∀ {handlers : List XmlElement} {confs : List HandlerConf},
      List.Forall₂ (fun handler conf => loadHandlerConf handler = .ok conf) handlers confs →
      (confs = [] ↔ handlers = []) := by
    intro handlers confs h
    rw [← List.length_eq_zero_iff, ← List.length_eq_zero_iff, h.length_eq]
  have htopics : ∀ {handler : XmlElement} {conf : HandlerConf},
      loadHandlerConf handler = .ok conf → (conf.topics ≠ [] ↔ topicElements handler ≠ []) := by
    intro handler conf h
    rw [← List.length_pos_iff, ← List.length_pos_iff, length_topics h]
  unfold Sufficient
  rw [hnone hconsumers, hnone hproducers]
  refine or_congr_right (or_congr_right ?_)
  constructor
  · rintro ⟨first, second, rest, hlist, hfirst, hsecond⟩
    change List.Forall₂ _ (producersOf document) producers at hproducers
    rw [hlist] at hproducers
    obtain ⟨first', tail, hloadFirst, htail, hdocument⟩ :=
      List.forall₂_cons_right_iff.mp hproducers
    obtain ⟨second', rest', hloadSecond, _, rfl⟩ := List.forall₂_cons_right_iff.mp htail
    exact ⟨first', second', rest', hdocument, (htopics hloadFirst).mp hfirst,
      (htopics hloadSecond).mp hsecond⟩
  · rintro ⟨first, second, rest, hlist, hfirst, hsecond⟩
    rw [hlist] at hproducers
    obtain ⟨first', tail, hloadFirst, htail, hconfs⟩ := List.forall₂_cons_left_iff.mp hproducers
    obtain ⟨second', rest', hloadSecond, _, rfl⟩ := List.forall₂_cons_left_iff.mp htail
    exact ⟨first', second', rest', hconfs, (htopics hloadFirst).mpr hfirst,
      (htopics hloadSecond).mpr hsecond⟩

/-- For every document: the loader returns, and `main` reports the error or uses
only what exists, whatever the library answers, if and only if the document is
complete. A file that cannot be loaded is always reported. -/
theorem startup_total_iff (document : Option (List XmlNode)) :
    ((∃ confs, load document = .ok confs) ∧ ∀ kafka, Safe (main kafka document)) ↔
      ∀ nodes ∈ document, CompleteDocument nodes := by
  cases document with
  | none =>
      refine iff_of_true ⟨⟨_, rfl⟩, ?_⟩ (fun nodes hnodes => by cases hnodes)
      intro kafka
      exact safe_main_of_sufficient kafka rfl (Or.inl rfl)
  | some nodes =>
      have hmem : (∀ tree ∈ some nodes, CompleteDocument tree) ↔ CompleteDocument nodes :=
        ⟨fun h => h nodes rfl, fun h tree htree => by cases htree; exact h⟩
      rw [hmem]
      constructor
      · rintro ⟨⟨⟨consumers, producers⟩, hload⟩, hmain⟩
        exact ⟨exists_load_iff.mp ⟨_, hload⟩,
          (sufficient_iff hload).mp (sufficient_of_safe_main hload (hmain accepting))⟩
      · intro h
        obtain ⟨⟨consumers, producers⟩, hload⟩ := exists_load_iff.mpr h.handlers
        exact ⟨⟨_, hload⟩, fun kafka => safe_main_of_sufficient kafka hload
          ((sufficient_iff hload).mpr h.producers)⟩

/-- A handler with one topic and no settings. -/
def sampleHandler (topic : String) : XmlNode :=
  .element [.element [.element [.text topic]]]

/-- A document with one consumer and the given producers. -/
def sampleDocument (producers : List XmlNode) : List XmlNode :=
  [.other, .element [.element [sampleHandler "feed"], .element producers]]

/-- The document is well formed and complete in every handler, but it has one
producer only: `main` indexes behind the end of the vector. In another one an
entry of a list of settings has no value: the loader follows a null pointer. -/
theorem startup_faults :
    main accepting (some (sampleDocument [sampleHandler "alerts"])) = .error .outOfRange ∧
    load (some (sampleDocument [.element [.element [], .element [.element [.element
      [.text "group.id"]]]]])) = .error .nullElement := by
  refine ⟨eq_error_of_check ?_, eq_error_of_check ?_⟩
  · decide +kernel
  · decide +kernel

end OLog.Startup
