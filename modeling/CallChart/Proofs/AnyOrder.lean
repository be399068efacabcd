import CallChart.Proofs.Layouts
import CallChart.Proofs.Tiers
import Mathlib.Order.Compare

/-! A layout does not depend on the order in which a graph was put together: the order of edges never shows,
and that of nodes at most in the order of components that are equally large. -/
namespace CallChart

variable {W F α : Type} [Handle F]

/-! ### Graphs of the same functions and calls -/

/-- Handles to one function, which goes by one name. -/
def Handle.Same (f f' : F) : Prop := compare f f' = .eq ∧ Handle.displayName f = Handle.displayName f'

instance (f f' : F) : Decidable (Handle.Same f f') := inferInstanceAs (Decidable (_ ∧ _))

namespace Graph

variable {g g' : Graph F α}

/-- The graphs have the same functions and the same edges, in whatever order. -/
structure SameContents (g g' : Graph F α) : Prop where
  nodes : ∀ n ∈ g.nodes, ∃ n' ∈ g'.nodes, Handle.Same n.function n'.function
  nodes' : ∀ n' ∈ g'.nodes, ∃ n ∈ g.nodes, Handle.Same n.function n'.function
  edges : ∀ e, e ∈ g.edges ↔ e ∈ g'.edges

/-- The functions were added in the same order. -/
def SameOrder (g g' : Graph F α) : Prop :=
  List.Forall₂ (fun n n' => Handle.Same n.function n'.function) g.nodes.toList g'.nodes.toList

/-- What such graphs share: their nodes, the keys by which they are sorted, and their edges. -/
structure Matching (g g' : Graph F α) : Prop where
  ids (id : NodeId) : id ∈ g.ids ↔ id ∈ g'.ids
  key (id : NodeId) : LayoutRequest.sortKey g id = LayoutRequest.sortKey g' id
  edges : g.edges.toList.Perm g'.edges.toList

theorem Matching.symm (h : g.Matching g') : g'.Matching g :=
  ⟨fun id => (h.ids id).symm, fun id => (h.key id).symm, h.edges.symm⟩

theorem Sound.id_eq_of_same (hg : g.Sound) (hg' : g'.Sound) {n n' : Node F α} (hn : n ∈ g.nodes) (hn' : n' ∈ g'.nodes)
    (h : Handle.Same n.function n'.function) : n.id = n'.id := by
  rw [hg.function hn, hg'.function hn']
  exact Handle.nodeId_congr h.1

theorem SameContents.matching (h : g.SameContents g') (hg : g.Sound) (hg' : g'.Sound) : g.Matching g' := by
  have hids (id : NodeId) : id ∈ g.ids ↔ id ∈ g'.ids := by
    rw [mem_ids, mem_ids]
    constructor
    · rintro ⟨n, hn, rfl⟩
      obtain ⟨n', hn', hsame⟩ := h.nodes n hn
      exact ⟨n', hn', (hg.id_eq_of_same hg' hn hn' hsame).symm⟩
    · rintro ⟨n', hn', rfl⟩
      obtain ⟨n, hn, hsame⟩ := h.nodes' n' hn'
      exact ⟨n, hn, hg.id_eq_of_same hg' hn hn' hsame⟩
  have hname (id : NodeId) : (g.node? id).map (fun n => Handle.displayName n.function) =
      (g'.node? id).map fun n => Handle.displayName n.function := by
    cases hfound : g.node? id with
    | some n =>
      obtain ⟨hn, rfl⟩ := hg.node?_eq_some.mp hfound
      obtain ⟨n', hn', hsame⟩ := h.nodes n hn
      have hfound' := hg'.node?_eq_some.mpr ⟨hn', (hg.id_eq_of_same hg' hn hn' hsame).symm⟩
      rw [hfound', Option.map_some, Option.map_some, hsame.2]
    | none =>
      cases hfound' : g'.node? id with
      | none => rfl
      | some n' =>
        obtain ⟨hn', hid⟩ := hg'.node?_eq_some.mp hfound'
        obtain ⟨n, hn, hid'⟩ := mem_ids.mp ((hids id).mpr (mem_ids.mpr ⟨n', hn', hid⟩))
        rw [hg.node?_eq_some.mpr ⟨hn, hid'⟩] at hfound
        cases hfound
  refine ⟨hids, fun id => ?_, (List.perm_ext_iff_of_nodup hg.nodup_edges hg'.nodup_edges).mpr fun e => ?_⟩
  · rw [LayoutRequest.sortKey, LayoutRequest.sortKey, hname]
  · rw [Array.mem_toList_iff, Array.mem_toList_iff]
    exact h.edges e

theorem SameOrder.ids_eq (h : g.SameOrder g') (hg : g.Sound) (hg' : g'.Sound) : g.ids = g'.ids := by
  have hids {ns ns' : List (Node F α)}
      (h : List.Forall₂ (fun n n' => Handle.Same n.function n'.function) ns ns') (hns : ∀ n ∈ ns, n ∈ g.nodes)
      (hns' : ∀ n ∈ ns', n ∈ g'.nodes) : ns.map Node.id = ns'.map Node.id := by
    induction h with
    | nil => rfl
    | cons hsame _ ih =>
      obtain ⟨hn, hrest⟩ := List.forall_mem_cons.mp hns
      obtain ⟨hn', hrest'⟩ := List.forall_mem_cons.mp hns'
      rw [List.map_cons, List.map_cons, hg.id_eq_of_same hg' hn hn' hsame, ih hrest hrest']
  exact hids h (fun _ => Array.mem_toList_iff.mp) fun _ => Array.mem_toList_iff.mp

/-! ### Their components -/

omit [Handle F] in
/-- The same nodes gone through in the same order give the same parts. -/
theorem Parted.forall₂_perm {seen seen' : NodeId → Prop} {names : List NodeId} {parts parts' : List (List NodeId)}
    (h : g.Parted seen names parts) (h' : g'.Parted seen' names parts') (hlinked : g.Linked = g'.Linked)
    (hseen : ∀ x, seen x ↔ seen' x) : List.Forall₂ List.Perm parts parts' := by
  induction h generalizing seen' parts' with
  | nil =>
    cases h'
    exact .nil
  | skip hs _ ih =>
    cases h' with
    | skip _ hrest => exact ih hrest hseen
    | part hnew _ _ _ _ => exact absurd ((hseen _).mp hs) hnew
  | part hnew hnodup hmem hlater _ ih =>
    cases h' with
    | skip hs _ => exact absurd ((hseen _).mpr hs) hnew
    | part _ hnodup' hmem' hlater' hrest' =>
      refine .cons ((List.perm_ext_iff_of_nodup hnodup hnodup').mpr fun x => ?_) (ih hrest' fun x => ?_)
      · rw [hmem, hmem', hlinked]
      · rw [hlater, hlater', hseen, hlinked]

theorem Matching.linked (h : g.Matching g') : g.Linked = g'.Linked :=
  linked_congr fun e => by rw [← Array.mem_toList_iff, ← Array.mem_toList_iff, h.edges.mem_iff]

/-- Every component of one graph has the nodes of a component of the other. -/
theorem Matching.exists_component (h : g.Matching g') (hg : g.Sound) (hg' : g'.Sound) {c : Component}
    (hc : c ∈ g.components) : ∃ c' ∈ g'.components, c.nodes.Perm c'.nodes := by
  obtain ⟨id, hid⟩ := List.exists_mem_of_ne_nil _ (hg.component_ne_nil hc)
  obtain ⟨c', hc', hid'⟩ := hg'.exists_component ((h.ids id).mp (hg.mem_ids_of_component hc hid))
  refine ⟨c', hc', (List.perm_ext_iff_of_nodup (hg.component_class hc).1 (hg'.component_class hc').1).mpr fun x => ?_⟩
  rw [hg.mem_component_iff hc hid, hg'.mem_component_iff hc' hid', h.linked]

end Graph

/-! ### Their requests -/

namespace LayoutRequest

variable {g g' : Graph F α}

/-- The request for nodes in an order. -/
def ofOrder (g : Graph F α) (ids : List NodeId) : LayoutRequest :=
  ⟨ids.map NodeId.label, (ids.flatMap (links g)).map fun link => (link.1.label, link.2.label)⟩

theorem ofComponent_eq (g : Graph F α) (c : Component) : ofComponent g c = ofOrder g (order g c) := rfl

end LayoutRequest

namespace Graph

open LayoutRequest

variable {g g' : Graph F α}

theorem Matching.ofOrder (h : g.Matching g') : ofOrder g = ofOrder g' := by
  have hlinks : links g = links g' := by
    funext id
    have houtgoing : (g.outgoing id).Perm (g'.outgoing id) :=
      (List.reverse_perm _).trans ((h.edges.filter _).trans (List.reverse_perm _).symm)
    rw [links, links, sorted_congr (houtgoing.map Edge.target) fun id _ => h.key id]
  funext ids
  rw [LayoutRequest.ofOrder, LayoutRequest.ofOrder, hlinks]

theorem Matching.order (h : g.Matching g') {c c' : Component} (hc : c.nodes.Perm c'.nodes) :
    order g c = order g' c' :=
  sorted_congr hc fun id _ => h.key id

/-- The components of both graphs, each with its nodes in order, are the same. -/
theorem Matching.perm_orders (h : g.Matching g') (hg : g.Sound) (hg' : g'.Sound) :
    (g.components.map (LayoutRequest.order g)).Perm (g'.components.map (LayoutRequest.order g')) := by
  have hnodup {g : Graph F α} (hg : g.Sound) : (g.components.map (LayoutRequest.order g)).Nodup := by
    have hrequests := nodup_requests hg
    have hmap : g.components.map (ofComponent g) = (g.components.map (LayoutRequest.order g)).map
        (LayoutRequest.ofOrder g) := by
      rw [List.map_map]
      rfl
    rw [hmap] at hrequests
    exact hrequests.of_map
  have hsub {g g' : Graph F α} (h : g.Matching g') (hg : g.Sound) (hg' : g'.Sound) :
      g.components.map (LayoutRequest.order g) ⊆ g'.components.map (LayoutRequest.order g') := by
    intro ids hids
    obtain ⟨c, hc, rfl⟩ := List.mem_map.mp hids
    obtain ⟨c', hc', hperm⟩ := h.exists_component hg hg' hc
    exact List.mem_map.mpr ⟨c', hc', (h.order hperm).symm⟩
  refine (List.perm_ext_iff_of_nodup (hnodup hg) (hnodup hg')).mpr fun ids => ?_
  exact ⟨fun hin => hsub h hg hg' hin, fun hin => hsub h.symm hg' hg hin⟩

end Graph
/-! ### Their drawings -/

namespace Scalar

instance : Std.TransCmp (order : Float → Float → Ordering) :=
  inferInstanceAs (Std.TransCmp (compareOn Number.Binary64.rank))

theorem order_rat : (order : Rat → Rat → Ordering) = compare := by
  funext x y
  change (if x < y then Ordering.lt else if y < x then .gt else .eq) = compare x y
  split
  · next h => exact (compare_lt_iff_lt.mpr h).symm
  · next h =>
    split
    · next h' => exact (compare_gt_iff_gt.mpr h').symm
    · next h' => exact (compare_eq_iff_eq.mpr (le_antisymm (not_lt.mp h') (not_lt.mp h))).symm

instance : Std.TransCmp (order : Rat → Rat → Ordering) := by
  rw [order_rat]
  infer_instance

end Scalar

variable [Scalar α]

namespace SizedBlueprint

/-- The taller one comes first, and of equally tall ones the wider one. -/
def sizeOrder (a b : SizedBlueprint α) : Ordering :=
  (Scalar.order b.height a.height).then (Scalar.order b.width a.width)

theorem sized_eq (gridSize : α) (bs : List (Blueprint α)) :
    Blueprint.sized gridSize bs =
      (bs.filterMap (ofBlueprint? gridSize)).mergeSort fun a b => (sizeOrder a b).isLE := rfl

theorem transCmp_sizeOrder [Std.TransCmp (Scalar.order : α → α → Ordering)] :
    Std.TransCmp (sizeOrder : SizedBlueprint α → SizedBlueprint α → Ordering) := by
  have hdown (size : SizedBlueprint α → α) : Std.TransCmp fun a b => Scalar.order (size b) (size a) :=
    { eq_swap := Std.OrientedCmp.eq_swap
      isLE_trans := fun hab hbc => Std.TransCmp.isLE_trans hbc hab }
  have hheight := hdown height
  have hwidth := hdown width
  exact inferInstanceAs (Std.TransCmp (compareLex (fun a b => Scalar.order (height b) (height a))
    fun a b => Scalar.order (width b) (width a)))

end SizedBlueprint

namespace LayoutService

open LayoutRequest

variable {service : LayoutService W α} {settings : LayoutSettings α} {g g' : Graph F α}
  {answer : LayoutRequest → Except LayoutError (RawLayout α)} {log : List (Exchange α)}
  {cs : List Component} {bs : List (Blueprint α)} {c : Component}

/-- The scaled drawing of a component, whose nodes are in order, by a service that answers alike. -/
def drawing (answer : LayoutRequest → Except LayoutError (RawLayout α)) (settings : LayoutSettings α)
    (g : Graph F α) (ids : List NodeId) : Except LayoutError (Blueprint α) :=
  if ids.length = 1 then .ok (ids.map fun id => (id, ⟨Scalar.half, Scalar.half⟩))
  else ((answer (ofOrder g ids)).bind fun raw => positions raw ids).bind (onGrid settings)

/-- The drawings of components. -/
def Drawings (answer : LayoutRequest → Except LayoutError (RawLayout α)) (settings : LayoutSettings α)
    (g : Graph F α) : List Component → List (Blueprint α) → Prop :=
  List.Forall₂ fun c b => drawing answer settings g (order g c) = .ok b

theorem Drawn.drawings (h : Drawn settings g cs log bs)
    (hanswer : ∀ {request reply}, (request, reply) ∈ log → reply = answer request) :
    Drawings answer settings g cs bs := by
  induction h with
  | nil => exact .nil
  | @single c _ _ _ hone _ ih =>
    refine .cons ?_ (ih hanswer)
    obtain ⟨id, hid⟩ := List.length_eq_one_iff.mp hone
    have horder : order g c = c.nodes := by
      rw [hid]
      exact List.perm_singleton.mp (hid ▸ perm_order g c)
    rw [LayoutService.drawing, if_pos (horder ▸ hone), horder]
    rfl
  | @answered c _ _ _ raw b _ hmany hplaced hscaled _ ih =>
    refine .cons ?_ (ih fun hin => hanswer (List.mem_cons_of_mem _ hin))
    have hreply : .ok raw = answer (ofOrder g (order g c)) := hanswer List.mem_cons_self
    rw [LayoutService.drawing, if_neg ((perm_order g c).length_eq ▸ hmany), ← hreply]
    exact Except.bind_eq_ok.mpr ⟨b, hplaced, onGrid_eq_ok_iff.mpr hscaled⟩

/-- The size of a component with its drawing. -/
def sized? (answer : LayoutRequest → Except LayoutError (RawLayout α)) (settings : LayoutSettings α)
    (g : Graph F α) (c : Component) : Option (SizedBlueprint α) :=
  (drawing answer settings g (order g c)).toOption.bind (SizedBlueprint.ofBlueprint? settings.gridSize)

/-- No two components of a graph are equally high and equally wide. -/
def SizesDiffer (answer : LayoutRequest → Except LayoutError (RawLayout α)) (settings : LayoutSettings α)
    (g : Graph F α) : Prop :=
  ∀ c ∈ g.components, ∀ d ∈ g.components, ∀ s t, sized? answer settings g c = some s →
    sized? answer settings g d = some t → Scalar.order s.height t.height = .eq →
      Scalar.order s.width t.width = .eq → c = d

theorem drawing_congr (h : g.Matching g') (ids : List NodeId) :
    drawing answer settings g ids = drawing answer settings g' ids := by
  rw [drawing, drawing, h.ofOrder]

/-- The components of both graphs are drawn alike. -/
theorem perm_drawings (h : g.Matching g') (hg : g.Sound) (hg' : g'.Sound) {bs' : List (Blueprint α)}
    (hbs : Drawings answer settings g g.components bs)
    (hbs' : Drawings answer settings g' g'.components bs') :
    bs.Perm bs' := by
  have hmap {g : Graph F α} {cs : List Component} {bs : List (Blueprint α)}
      (hbs : Drawings answer settings g cs bs) :
      bs = (cs.map (order g)).map fun ids => (drawing answer settings g ids).toOption.getD [] := by
    induction hbs with
    | nil => rfl
    | cons hb _ ih =>
      rw [List.map_cons, List.map_cons, hb, ← ih]
      rfl
  rw [hmap hbs, hmap hbs', funext (drawing_congr h)]
  exact (h.perm_orders hg hg').map _

omit [Scalar α] in
/-- Both graphs need the same requests. -/
theorem perm_requests (h : g.Matching g') (hg : g.Sound) (hg' : g'.Sound) : (requests g).Perm (requests g') := by
  have horders (g : Graph F α) : requests g =
      ((g.components.map (order g)).filter (2 ≤ ·.length)).map (ofOrder g) := by
    rw [requests, List.filter_map, List.map_map]
    refine congrArg _ (List.filter_congr fun c _ => ?_)
    rw [Function.comp_apply, (perm_order g c).length_eq]
  rw [horders, horders, h.ofOrder]
  exact ((h.perm_orders hg hg').filter _).map _

/-- Components whose sizes differ are stacked alike in whatever order they are drawn. -/
theorem stack_eq_of_perm [Std.TransCmp (Scalar.order : α → α → Ordering)] {bs' : List (Blueprint α)}
    (hdrawings : Drawings answer settings g g.components bs)
    (hsizes : SizesDiffer answer settings g) (hperm : bs.Perm bs') :
    Blueprint.stack settings.gridSize bs = Blueprint.stack settings.gridSize bs' := by
  have htrans : Std.TransCmp (SizedBlueprint.sizeOrder : SizedBlueprint α → SizedBlueprint α → Ordering) :=
    SizedBlueprint.transCmp_sizeOrder
  have hsized {s : SizedBlueprint α} (hs : s ∈ bs.filterMap (SizedBlueprint.ofBlueprint? settings.gridSize)) :
      ∃ c ∈ g.components, sized? answer settings g c = some s := by
    obtain ⟨b, hb, hbs⟩ := List.mem_filterMap.mp hs
    obtain ⟨c, hc, hdrawing⟩ := exists_of_forall₂ hdrawings hb
    refine ⟨c, hc, ?_⟩
    rw [sized?, hdrawing]
    exact hbs
  have hsame : Blueprint.sized settings.gridSize bs = Blueprint.sized settings.gridSize bs' := by
    rw [SizedBlueprint.sized_eq, SizedBlueprint.sized_eq]
    refine mergeSort_eq_of_perm (fun a ha b hb heq => ?_) (hperm.filterMap _)
    obtain ⟨c, hc, ha'⟩ := hsized ha
    obtain ⟨d, hd, hb'⟩ := hsized hb
    obtain ⟨hheight, hwidth⟩ := Ordering.then_eq_eq.mp heq
    obtain rfl := hsizes d hd c hc b a hb' ha' hheight hwidth
    exact Option.some.inj (ha'.symm.trans hb')
  rw [Blueprint.stack, Blueprint.stack, hsame]

/-- What a layout that succeeds has asked and drawn. -/
theorem compute_drawn {I : W → Prop} (hs : service.Keeps I) (hanswer : service.Answers I answer) (hg : g.Sound)
    {w w' : W} (hw : I w) {points : Placement α}
    (h : (service.noted.compute settings g).after (w, []) = (.ok points, (w', log))) :
    log.map Prod.fst = requests g ∧
      ∃ bs, Drawings answer settings g g.components bs ∧
        points = Placement.ofList ((Blueprint.stack settings.gridSize bs).fit settings.inset) := by
  obtain ⟨bs, hall, rfl⟩ := compute_ok h
  obtain ⟨new, rfl, hdrawn⟩ := drawAll_ok hall
  exact ⟨(requests_eq hg).symm ▸ hdrawn.requests, bs, hdrawn.drawings (compute_answers hs hw hanswer h), rfl⟩

/-- Two graphs with the same functions and the same edges are laid out alike. If only their edges were added
in different orders then a layout of either is the same in all that it does. If their nodes were, too, then
layouts that succeed ask the same of a service that answers alike, and they give the same points unless
components are equally large. -/
theorem laid_out_alike [Std.TransCmp (Scalar.order : α → α → Ordering)] (hg : g.Reached) (hg' : g'.Reached)
    (hsame : g.SameContents g') :
    (g.SameOrder g' → service.compute settings g = service.compute settings g') ∧
    ∀ {I : W → Prop} {answer} {w v w' v' points points'} {log log' : List (Exchange α)}, service.Keeps I →
      service.Answers I answer → I w → I v →
      (service.noted.compute settings g).after (w, []) = (.ok points, (w', log)) →
      (service.noted.compute settings g').after (v, []) = (.ok points', (v', log')) →
      (log.map Prod.fst).Perm (log'.map Prod.fst) ∧ (SizesDiffer answer settings g → points = points') := by
  have hsound := hg.sound
  have hsound' := hg'.sound
  have hmatching := hsame.matching hsound hsound'
  refine ⟨fun horder => ?_, fun hs hanswer hw hv h h' => ?_⟩
  · have hparted := hsound.parted
    rw [horder.ids_eq hsound hsound'] at hparted
    have hnodes := hparted.forall₂_perm hsound'.parted hmatching.linked fun _ => Iff.rfl
    rw [List.forall₂_map_left_iff, List.forall₂_map_right_iff] at hnodes
    refine compute_congr (hnodes.imp fun c c' hperm => ⟨hperm, hmatching.order hperm, ?_⟩) service settings
    rw [ofComponent_eq, ofComponent_eq, hmatching.order hperm, hmatching.ofOrder]
  · obtain ⟨hlog, bs, hbs, rfl⟩ := compute_drawn hs hanswer hsound hw h
    obtain ⟨hlog', bs', hbs', rfl⟩ := compute_drawn hs hanswer hsound' hv h'
    refine ⟨?_, fun hsizes => ?_⟩
    · rw [hlog, hlog']
      exact perm_requests hmatching hsound hsound'
    · rw [stack_eq_of_perm hbs hsizes (perm_drawings hmatching hsound hsound' hbs hbs')]

/-! ### An example -/

/-- Draws one function below another one, and knows of no others. -/
def column : RawLayout Rat :=
  let label (name : String) := (Handle.nodeId (SourceFunction.named name)).label
  let points : List (String × Point Rat) := [(label "main", ⟨0, 0⟩), (label "run", ⟨0, 1⟩)]
  ⟨.ofList points, ⟨1, 1⟩⟩

/-- Two functions in a column are higher than one grid step. -/
theorem column_height {g : Graph SourceFunction Rat} {c : Component} {s : SizedBlueprint Rat}
    (hs : sized? (fun _ => .ok column) .standard g c = some s)
    (hc : ∀ name ∈ ["main", "run"], Handle.nodeId (SourceFunction.named name) ∈ c.nodes) :
    (LayoutSettings.standard : LayoutSettings Rat).gridSize < s.height := by
  obtain ⟨b, hb, hsized⟩ := Option.bind_eq_some_iff.mp hs
  obtain ⟨hexact, rfl⟩ := SizedBlueprint.exact_of_ofBlueprint? hsized
  have hmem (name : String) (hname : name ∈ ["main", "run"]) :
      Handle.nodeId (SourceFunction.named name) ∈ order g c := (perm_order g c).mem_iff.mpr (hc name hname)
  have hmany : (order g c).length ≠ 1 := by
    intro hone
    obtain ⟨id, hid⟩ := List.length_eq_one_iff.mp hone
    rw [hid] at hmem
    have hmain := List.mem_singleton.mp (hmem "main" (by decide))
    have hrun := List.mem_singleton.mp (hmem "run" (by decide))
    exact absurd (hmain.trans hrun.symm) (by decide +kernel)
  have hplaced : ∃ b', positions column (order g c) = .ok b' ∧
      b'.normalize LayoutSettings.standard.gridSize LayoutSettings.standard.precision = some s.blueprint := by
    rw [drawing, if_neg hmany] at hb
    cases hdrawn : ((Except.ok column).bind fun raw => positions raw (order g c)).bind (onGrid .standard) with
    | error e =>
      rw [hdrawn] at hb
      cases hb
    | ok b =>
      rw [hdrawn] at hb
      obtain rfl := Option.some.inj hb
      obtain ⟨b', hpositions, hscaled⟩ := Except.bind_eq_ok.mp hdrawn
      exact ⟨b', hpositions, onGrid_eq_ok_iff.mp hscaled⟩
  obtain ⟨b', hb', hscaled⟩ := hplaced
  have hat (name : String) (y : Rat) (hname : name ∈ ["main", "run"])
      (hy : (column.positions[(Handle.nodeId (SourceFunction.named name)).label]?).map (·.y) = some y) :
      ∃ entry ∈ b', entry.2.y = y := by
    obtain ⟨p, hp, hpy⟩ := Option.map_eq_some_iff.mp hy
    exact ⟨(_, p), (mem_positions hb').mpr ⟨hmem name hname, hp⟩, hpy⟩
  obtain ⟨e, he, hlow⟩ := hat "main" 0 (by decide) (by decide +kernel)
  obtain ⟨e', he', hhigh⟩ := hat "run" 1 (by decide) (by decide +kernel)
  obtain ⟨hgrid, -, hprecision⟩ := LayoutSettings.check_ok_iff.mp LayoutSettings.check_standard
  have hredrawn := Blueprint.redrawn_normalize hgrid (one_pos.trans_le hprecision) hscaled
  obtain ⟨u, hu, v, hv, hlt⟩ := hredrawn.exists_lt he he' (by rw [hlow, hhigh]; exact one_pos)
  exact hexact.gridSize_lt_height hu hv hlt

/-- A single function is one grid step high. -/
theorem single_height {answer : LayoutRequest → Except LayoutError (RawLayout Rat)} {settings : LayoutSettings Rat}
    {g : Graph F Rat} {c : Component} {s : SizedBlueprint Rat} (hs : sized? answer settings g c = some s)
    (hone : c.nodes.length = 1) : s.height = settings.gridSize := by
  obtain ⟨id, hid⟩ := List.length_eq_one_iff.mp ((perm_order g c).length_eq.trans hone)
  have hdrawing : drawing answer settings g (order g c) = .ok [(id, ⟨1 / 2, 1 / 2⟩)] := by
    rw [drawing, hid]
    rfl
  rw [sized?, hdrawing] at hs
  cases hs
  change (1 / 2 : Rat) - 1 / 2 + settings.gridSize = settings.gridSize
  rw [sub_self, zero_add]

/-- Functions and then calls, in an order. -/
def sketch (names : List String) (calls : List (String × String)) : List (Nat × GraphOperation SourceFunction Rat) :=
  names.map (fun name => (0, .addNode (.named name))) ++
    calls.map fun call => (0, .addEdge (.named call.1) (.named call.2))

theorem sketches_laid_out_alike :
    ∃ g ∈ Workbench.run (sketch ["main", "run", "help"] [("main", "run"), ("run", "main")]),
    ∃ g' ∈ Workbench.run (sketch ["main", "run", "help"] [("run", "main"), ("main", "run")]),
    ∃ g'' ∈ Workbench.run (sketch ["help", "run", "main"] [("run", "main"), ("main", "run")]),
      (steady fun _ => .ok column).compute .standard g = (steady fun _ => .ok column).compute .standard g' ∧
      ∃ points log log'',
        ((steady fun _ => .ok column).noted.compute .standard g).after ((), []) = (.ok points, ((), log)) ∧
        ((steady fun _ => .ok column).noted.compute .standard g'').after ((), []) = (.ok points, ((), log'')) ∧
        (log.map Prod.fst).Perm (log''.map Prod.fst) := by
  let work := sketch ["main", "run", "help"] [("main", "run"), ("run", "main")]
  let work' := sketch ["main", "run", "help"] [("run", "main"), ("main", "run")]
  let work'' := sketch ["help", "run", "main"] [("run", "main"), ("main", "run")]
  let g := (Workbench.run work).get ⟨0, by decide +kernel⟩
  let g' := (Workbench.run work').get ⟨0, by decide +kernel⟩
  let g'' := (Workbench.run work'').get ⟨0, by decide +kernel⟩
  have hmem : g ∈ Workbench.run work := List.get_mem _ _
  have hmem' : g' ∈ Workbench.run work' := List.get_mem _ _
  have hmem'' : g'' ∈ Workbench.run work'' := List.get_mem _ _
  have hg : g.Reached := ⟨work, hmem⟩
  have hg' : g'.Reached := ⟨work', hmem'⟩
  have hg'' : g''.Reached := ⟨work'', hmem''⟩
  have hedges : g.edges.toList.Perm g'.edges.toList ∧ g.edges.toList.Perm g''.edges.toList := by decide +kernel
  have hsame : g.SameContents g' := by
    refine ⟨by decide +kernel, by decide +kernel, fun e => ?_⟩
    rw [← Array.mem_toList_iff, ← Array.mem_toList_iff, hedges.1.mem_iff]
  have hsame'' : g.SameContents g'' := by
    refine ⟨by decide +kernel, by decide +kernel, fun e => ?_⟩
    rw [← Array.mem_toList_iff, ← Array.mem_toList_iff, hedges.2.mem_iff]
  have horder : g.SameOrder g' := by
    have hpairs : ∀ pair ∈ g.nodes.toList.zip g'.nodes.toList, Handle.Same pair.1.function pair.2.function := by
      decide +kernel
    exact List.forall₂_iff_zip.mpr ⟨by decide +kernel, fun hin => hpairs _ hin⟩
  have hcomplete {g : Graph SourceFunction Rat} (hfound : ∀ c ∈ g.components, 2 ≤ c.nodes.length →
      ∀ id ∈ c.nodes, (column.positions[id.label]?).isSome = true) (c : Component) (hc : c ∈ g.components)
      (hmany : 2 ≤ c.nodes.length) : ∃ b, blueprint .standard g c (.ok column) = .ok b := by
    refine exists_blueprint_iff.mpr ⟨⟨column, rfl, fun id hid => ?_⟩, not_overflows LayoutSettings.check_standard⟩
    obtain ⟨p, hp⟩ := Option.isSome_iff_exists.mp (hfound c hc hmany id hid)
    exact ⟨p, hp, rfl⟩
  have hsizes : SizesDiffer (fun _ => .ok column) .standard g := by
    have hkinds : ∀ c ∈ g.components, c.nodes.length = 1 ∨ c.nodes.length = 2 ∧
        ∀ name ∈ ["main", "run"], Handle.nodeId (SourceFunction.named name) ∈ c.nodes := by decide +kernel
    have hlengths : (g.components.map (·.nodes.length)).Nodup := by decide +kernel
    intro c hc d hd s t hs ht hheight _
    rw [Scalar.order_rat, compare_eq_iff_eq] at hheight
    refine List.inj_on_of_nodup_map hlengths hc hd ?_
    rcases hkinds c hc with hone | ⟨htwo, hc'⟩ <;> rcases hkinds d hd with hone' | ⟨htwo', hd'⟩
    · exact hone.trans hone'.symm
    · exact absurd ((single_height hs hone).symm.trans hheight) (column_height ht hd').ne
    · exact absurd (hheight.trans (single_height ht hone')).symm (column_height hs hc').ne
    · exact htwo.trans htwo'.symm
  obtain ⟨points, log, hrun⟩ :=
    exists_compute_ok (fun _ => .ok column) .standard hg.sound (hcomplete (by decide +kernel))
  obtain ⟨points'', log'', hrun''⟩ :=
    exists_compute_ok (fun _ => .ok column) .standard hg''.sound (hcomplete (by decide +kernel))
  have hedgesOnly : (steady fun _ => .ok column).compute .standard g =
      (steady fun _ => .ok column).compute .standard g' := (laid_out_alike hg hg' hsame).1 horder
  obtain ⟨hasked, hpoints⟩ := (laid_out_alike hg hg'' hsame'').2 (undisturbed_steady _).toKeeps (answers_steady _)
    trivial trivial hrun hrun''
  obtain rfl := hpoints hsizes
  exact ⟨g, hmem, g', hmem', g'', hmem'', hedgesOnly, points, log, log'', hrun, hrun'', hasked⟩

end LayoutService
end CallChart
