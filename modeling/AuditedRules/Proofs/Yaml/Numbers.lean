import AuditedRules.Proofs.Json.Numbers
import AuditedRules.Yaml.Reader

/-!
# The numbers of a YAML document

A document that is read from YAML text has numbers only in the spelling of texts without quotes, so
its numbers fit (`Yaml.fits_read`). A node may be used again under a name that was given to it; so
the readers are followed together with the nodes that have names (`Feed.Fits`). None of them makes a
document from anything else than the documents that the others give and the nodes with names.
-/

namespace AuditedRules.Yaml

/-- All nodes that were given names fit. -/
def Feed.Fits (feed : Feed) : Prop :=
  ∀ anchor ∈ feed.anchors, anchor.2.Fits

/-- A name that is given to a node that fits keeps all of them so. -/
theorem Feed.Fits.define {feed : Feed} (h : feed.Fits) {node : Document} (hnode : node.Fits)
    (name : String) : (feed.define name node).Fits :=
  List.forall_mem_cons.2 ⟨hnode, h⟩

/-- A node that is read from nodes that fit, fits, and leaves nodes that fit. -/
def GivesFit (read : Feed → Document × Feed) : Prop :=
  ∀ feed, feed.Fits → (read feed).1.Fits ∧ (read feed).2.Fits

/-! ## Nodes that may be left out -/

/-- What is left out fits. -/
theorem fits_leftOut : leftOut.Fits := .plain ""

/-- A node that may be left out fits like the node itself. -/
theorem GivesFit.readUnless {read : Feed → Document × Feed} (h : GivesFit read)
    (ends : Token → Bool) : GivesFit (readUnless ends read) := by
  intro feed hfeed
  unfold Yaml.readUnless
  split
  · exact ⟨.broken, hfeed⟩
  · split
    · exact ⟨fits_leftOut, hfeed⟩
    · exact h feed hfeed

/-- The value of a member fits like the node that it is read from. -/
theorem GivesFit.readMemberValue {read : Feed → Document × Feed} (h : GivesFit read)
    (ends : Token → Bool) : GivesFit (readMemberValue ends read) := by
  intro feed hfeed
  unfold Yaml.readMemberValue
  split
  · exact ⟨.broken, hfeed⟩
  · exact h.readUnless ends _ hfeed
  · exact ⟨fits_leftOut, hfeed⟩

/-- Going over a comma changes no names. -/
theorem fits_of_skipComma {first : Bool} {feed after : Feed} (hfeed : feed.Fits)
    (h : skipComma first feed = some after) : after.Fits := by
  unfold skipComma at h
  split at h
  · cases h
    exact hfeed
  · split at h
    · cases h
      exact hfeed
    · cases h

/-! ## The readers -/

/-- Items that are read from nodes that fit, fit, and leave nodes that fit. -/
def GivesItemsFit (read : Feed → List Document × Bool × Feed) : Prop :=
  ∀ feed, feed.Fits → (∀ item ∈ (read feed).1, item.Fits) ∧ (read feed).2.2.Fits

/-- The values of members that are read from nodes that fit, fit, and leave nodes that fit. -/
def GivesMembersFit (read : Feed → List (Document × Document) × Bool × Feed) : Prop :=
  ∀ feed, feed.Fits → (∀ m ∈ (read feed).1, m.2.Fits) ∧ (read feed).2.2.Fits

/-- No items, or no members, fit. -/
theorem forall_mem_nil {α : Type} (p : α → Prop) : ∀ a ∈ ([] : List α), p a :=
  fun _ h => absurd h List.not_mem_nil

variable {bound : Nat}

/-- A node fits if its content does. -/
theorem givesFit_readNode (hcontent : ∀ place anchored, GivesFit (readContent bound place anchored))
    (place : BlockPlace) : GivesFit (readNode (bound + 1) place) := by
  intro feed hfeed
  unfold readNode
  split
  · split
    · rename_i anchor hanchor
      exact ⟨hfeed anchor (List.mem_of_find?_eq_some hanchor), hfeed⟩
    · exact ⟨.broken, hfeed⟩
  · rename_i name rest _
    have hdefined : ((feed.past rest).define name .unreadable).Fits := hfeed.define .unreadable name
    obtain ⟨hnode, hafter⟩ := hcontent place true _ hdefined
    exact ⟨hnode, hafter.define hnode name⟩
  · exact hcontent place false feed hfeed

/-- The content of a node fits if its items and the values of its members do. -/
theorem givesFit_readContent (hblockItems : GivesItemsFit (readBlockItems bound))
    (hbareItems : GivesItemsFit (readBareItems bound))
    (hblockMembers : GivesMembersFit (readBlockMembers bound))
    (hflowItems : ∀ first, GivesItemsFit (readFlowItems bound first))
    (hflowMembers : ∀ first, GivesMembersFit (readFlowMembers bound first)) (place : BlockPlace)
    (anchored : Bool) : GivesFit (readContent (bound + 1) place anchored) := by
  intro feed hfeed
  -- A node without content is left out if it has a name, and else broken.
  have hnothing : ∀ feed' : Feed, feed'.Fits →
      (if anchored then (leftOut, feed) else (Document.broken, feed')).1.Fits ∧
        (if anchored then (leftOut, feed) else (Document.broken, feed')).2.Fits := by
    intro feed' hfeed'
    split
    · exact ⟨fits_leftOut, hfeed⟩
    · exact ⟨.broken, hfeed'⟩
  unfold readContent
  split
  · exact ⟨.plain _, hfeed⟩
  · exact ⟨.string _, hfeed⟩
  · rename_i rest _
    obtain ⟨hitems, hafter⟩ := hflowItems true (feed.past rest) hfeed
    exact ⟨.sequence hitems, hafter⟩
  · rename_i rest _
    obtain ⟨hmembers, hafter⟩ := hflowMembers true (feed.past rest) hfeed
    exact ⟨.mapping hmembers, hafter⟩
  · obtain ⟨hitems, hafter⟩ := hbareItems feed hfeed
    exact ⟨.sequence hitems, hafter⟩
  · exact hnothing feed.stop hfeed
  · rename_i rest _ _
    obtain ⟨hitems, hafter⟩ := hblockItems (feed.past rest) hfeed
    exact ⟨.sequence hitems, hafter⟩
  · rename_i rest _ _
    obtain ⟨hmembers, hafter⟩ := hblockMembers (feed.past rest) hfeed
    exact ⟨.mapping hmembers, hafter⟩
  · exact hnothing feed.stop hfeed
  · exact ⟨.broken, hfeed⟩

/-- The items of a block sequence fit if nodes and further items do. -/
theorem givesItemsFit_readBlockItems (hnode : ∀ place, GivesFit (readNode bound place))
    (hitems : GivesItemsFit (readBlockItems bound)) :
    GivesItemsFit (readBlockItems (bound + 1)) := by
  intro feed hfeed
  unfold readBlockItems
  split
  · rename_i rest _
    obtain ⟨hitem, hafter⟩ := (hnode .indented).readUnless endsBlockItem (feed.past rest) hfeed
    obtain ⟨hrest, hlast⟩ := hitems _ hafter
    exact ⟨List.forall_mem_cons.2 ⟨hitem, hrest⟩, hlast⟩
  · exact ⟨forall_mem_nil _, hfeed⟩
  · exact ⟨forall_mem_nil _, hfeed⟩

/-- The items of a sequence without indentation of its own fit if nodes and further items do. -/
theorem givesItemsFit_readBareItems (hnode : ∀ place, GivesFit (readNode bound place))
    (hitems : GivesItemsFit (readBareItems bound)) : GivesItemsFit (readBareItems (bound + 1)) := by
  intro feed hfeed
  unfold readBareItems
  split
  · rename_i rest _
    obtain ⟨hitem, hafter⟩ := (hnode .indented).readUnless endsBareItem (feed.past rest) hfeed
    obtain ⟨hrest, hlast⟩ := hitems _ hafter
    exact ⟨List.forall_mem_cons.2 ⟨hitem, hrest⟩, hlast⟩
  · exact ⟨forall_mem_nil _, hfeed⟩

/-- The values in a block mapping fit if nodes and further members do. -/
theorem givesMembersFit_readBlockMembers (hnode : ∀ place, GivesFit (readNode bound place))
    (hmembers : GivesMembersFit (readBlockMembers bound)) :
    GivesMembersFit (readBlockMembers (bound + 1)) := by
  intro feed hfeed
  unfold readBlockMembers
  split
  · rename_i rest _
    obtain ⟨-, hafter⟩ := (hnode .bare).readUnless endsBlockMember (feed.past rest) hfeed
    obtain ⟨hvalue, hafter⟩ := (hnode .bare).readMemberValue endsBlockMember _ hafter
    obtain ⟨hrest, hlast⟩ := hmembers _ hafter
    exact ⟨List.forall_mem_cons.2 ⟨hvalue, hrest⟩, hlast⟩
  · exact ⟨forall_mem_nil _, hfeed⟩
  · exact ⟨forall_mem_nil _, hfeed⟩

/-- The items of a sequence in brackets fit if nodes and further items do. -/
theorem givesItemsFit_readFlowItems (hnode : ∀ place, GivesFit (readNode bound place))
    (hitems : ∀ first, GivesItemsFit (readFlowItems bound first)) (first : Bool) :
    GivesItemsFit (readFlowItems (bound + 1) first) := by
  intro feed hfeed
  unfold readFlowItems
  split
  · exact ⟨forall_mem_nil _, hfeed⟩
  · split
    · exact ⟨forall_mem_nil _, hfeed⟩
    · rename_i feed' hcomma
      have hfeed' := fits_of_skipComma hfeed hcomma
      split
      · exact ⟨forall_mem_nil _, hfeed'⟩
      · rename_i rest _
        obtain ⟨-, hafter⟩ :=
          (hnode .none).readUnless (endsFlowKey .flowSequenceEnd) (feed'.past rest) hfeed'
        obtain ⟨hvalue, hafter⟩ :=
          (hnode .none).readMemberValue (endsFlowValue .flowSequenceEnd) _ hafter
        obtain ⟨hrest, hlast⟩ := hitems false _ hafter
        exact ⟨List.forall_mem_cons.2 ⟨.mapping (List.forall_mem_singleton.2 hvalue), hrest⟩, hlast⟩
      · obtain ⟨hitem, hafter⟩ := hnode .none feed' hfeed'
        obtain ⟨hrest, hlast⟩ := hitems false _ hafter
        exact ⟨List.forall_mem_cons.2 ⟨hitem, hrest⟩, hlast⟩

/-- The values in a mapping in brackets fit if nodes and further members do. -/
theorem givesMembersFit_readFlowMembers (hnode : ∀ place, GivesFit (readNode bound place))
    (hmembers : ∀ first, GivesMembersFit (readFlowMembers bound first)) (first : Bool) :
    GivesMembersFit (readFlowMembers (bound + 1) first) := by
  intro feed hfeed
  unfold readFlowMembers
  split
  · exact ⟨forall_mem_nil _, hfeed⟩
  · split
    · exact ⟨forall_mem_nil _, hfeed⟩
    · rename_i feed' hcomma
      have hfeed' := fits_of_skipComma hfeed hcomma
      split
      · exact ⟨forall_mem_nil _, hfeed'⟩
      · rename_i rest _
        obtain ⟨-, hafter⟩ :=
          (hnode .none).readUnless (endsFlowKey .flowMappingEnd) (feed'.past rest) hfeed'
        obtain ⟨hvalue, hafter⟩ :=
          (hnode .none).readMemberValue (endsFlowValue .flowMappingEnd) _ hafter
        obtain ⟨hrest, hlast⟩ := hmembers false _ hafter
        exact ⟨List.forall_mem_cons.2 ⟨hvalue, hrest⟩, hlast⟩
      · obtain ⟨-, hafter⟩ := hnode .none feed' hfeed'
        obtain ⟨hrest, hlast⟩ := hmembers false _ hafter
        have hvalue : (if (readNode bound .none feed').2.tokens.isEmpty then Document.broken
            else leftOut).Fits := by
          split
          · exact .broken
          · exact fits_leftOut
        exact ⟨List.forall_mem_cons.2 ⟨hvalue, hrest⟩, hlast⟩

/-- With any bound, all readers give what fits. -/
structure ReadersFit (bound : Nat) : Prop where
  node : ∀ place, GivesFit (readNode bound place)
  content : ∀ place anchored, GivesFit (readContent bound place anchored)
  blockItems : GivesItemsFit (readBlockItems bound)
  bareItems : GivesItemsFit (readBareItems bound)
  blockMembers : GivesMembersFit (readBlockMembers bound)
  flowItems : ∀ first, GivesItemsFit (readFlowItems bound first)
  flowMembers : ∀ first, GivesMembersFit (readFlowMembers bound first)

/-- The readers call each other with one bound less, so all of them are done at once. -/
theorem readersFit (bound : Nat) : ReadersFit bound := by
  induction bound with
  | zero =>
    exact ⟨fun _ _ hfeed => ⟨.broken, hfeed⟩, fun _ _ _ hfeed => ⟨.broken, hfeed⟩,
      fun _ hfeed => ⟨forall_mem_nil _, hfeed⟩, fun _ hfeed => ⟨forall_mem_nil _, hfeed⟩,
      fun _ hfeed => ⟨forall_mem_nil _, hfeed⟩, fun _ _ hfeed => ⟨forall_mem_nil _, hfeed⟩,
      fun _ _ hfeed => ⟨forall_mem_nil _, hfeed⟩⟩
  | succ bound ih =>
    exact ⟨givesFit_readNode ih.content,
      givesFit_readContent ih.blockItems ih.bareItems ih.blockMembers ih.flowItems ih.flowMembers,
      givesItemsFit_readBlockItems ih.node ih.blockItems,
      givesItemsFit_readBareItems ih.node ih.bareItems,
      givesMembersFit_readBlockMembers ih.node ih.blockMembers,
      givesItemsFit_readFlowItems ih.node ih.flowItems,
      givesMembersFit_readFlowMembers ih.node ih.flowMembers⟩

/-- The document of a text fits. -/
theorem fits_read (text : String) : (read text).root.Fits := by
  have hroot : GivesFit (readNode (4 * (tokens text).length + 4) .indented) :=
    (readersFit _).node .indented
  have hstart : ∀ rest, (Feed.mk rest []).Fits := fun _ => forall_mem_nil _
  unfold read
  dsimp only
  split
  · exact fits_leftOut
  · exact (hroot.readUnless endsDocument _ (hstart _)).1
  · exact (hroot _ (hstart _)).1

end AuditedRules.Yaml
