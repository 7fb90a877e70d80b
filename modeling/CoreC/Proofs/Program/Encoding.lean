import CoreC.Program.Encoding
import CoreC.Proofs.Json.Schema
import CoreC.Proofs.Json.Text
import CoreC.Proofs.Number.Decimal

/-! # Programs survive being written

A program that is written as JSON is read back as it was, also from its text, and it does not
matter in which order the members of records stand, what members there are beside the fields,
and whether fields that have their default are written. Numbers have to fit the words in which
they are read, and constants have to be finite.
-/

namespace CoreC

open Json Json Schema List Construct

namespace Json

/-- An encoder and a decoder of a format belong together: what is encoded is decoded as it was,
is read back from its text, and may be given in any way that the schema allows. -/
structure Faithful {α : Type} (schema : Schema) (encode : α → Json) (decode : Json → Option α) (Fits : α → Prop) :
    Prop where
  decodes : ∀ {a}, Fits a → decode (encode a) = some a
  plain : ∀ a, (encode a).Plain
  respects : schema.Respects decode

section Parts

theorem toNat?_ofNat {n : Nat} (hn : n < 2 ^ 64) : (ofNat n).toNat? = some n := by
  simp only [ofNat, toNat?, Numeral.ofNat, Numeral.toNat?, hn, decide_true, Bool.not_false, Bool.and_true,
    ↓reduceIte]

theorem plain_ofNat (n : Nat) : (ofNat n).Plain := .num fun _ => rfl

theorem faithful_nat : Faithful .leaf ofNat toNat? (· < 2 ^ 64) where
  decodes hn := toNat?_ofNat hn
  plain := plain_ofNat
  respects := respects_leaf _

theorem toInt?_ofInt {n : Int} (hlow : -2 ^ 63 ≤ n) (hhigh : n < 2 ^ 63) : (ofInt n).toInt? = some n := by
  simp only [ofInt, toInt?, Numeral.ofInt, Numeral.toInt?, Bool.not_true, Bool.false_eq_true, ↓reduceIte,
    decide_eq_true_eq, Bool.and_eq_true]
  split
  next hnegative =>
    rw [if_pos ⟨by omega, by omega⟩]
    congr 1
    omega
  next =>
    rw [if_pos (by omega)]
    congr 1
    omega

theorem plain_ofInt (n : Int) : (ofInt n).Plain := .num fun _ => rfl

theorem toDouble?_ofDouble {x : Double} (hx : x.isFinite = true) : (ofDouble x).toDouble? = some x := by
  rw [ofDouble, if_pos hx]
  simp only [toDouble?, Numeral.toDouble?, Numeral.ofDouble, Decimal.toDouble_ofDouble hx, hx, ↓reduceIte]

theorem plain_ofDouble (x : Double) : (ofDouble x).Plain := by
  unfold ofDouble
  split
  · exact .num fun hintegral => nomatch hintegral
  · exact .null

theorem toOption?_ofOption {n : Option Nat} (hn : ∀ k ∈ n, k < 2 ^ 64) :
    toOption? toNat? (.ofOption .ofNat n) = some n := by
  cases n with
  | none => rfl
  | some k => exact congrArg (Option.map some) (toNat?_ofNat (hn k rfl))

theorem toOption?_ofText (text : Option String) :
    toOption? toString? (.ofOption .str text) = some text := by
  cases text <;> rfl

variable {α : Type}

theorem optional?_eq {f : Fields} {name : String} {j : Json} (hgiven : f.given.lookup name = some j)
    (decode : Json → Option α) : f.optional? name decode = toOption? decode j := by
  unfold Fields.optional?
  rw [hgiven]
  cases j <;> rfl

theorem plain_ofOption {encode : α → Json} (hencode : ∀ a, (encode a).Plain) (a : Option α) :
    (ofOption encode a).Plain := by
  cases a with
  | none => exact .null
  | some a => exact hencode a

theorem Faithful.list {schema : Schema} {encode : α → Json} {decode : Json → Option α} {Fits : α → Prop}
    (h : Faithful schema encode decode Fits) :
    Faithful (.list schema) (ofList encode) (toList? decode) fun items => ∀ a ∈ items, Fits a where
  decodes {items} hitems := by
    change (items.map encode).mapM decode = some items
    induction items with
    | nil => rfl
    | cons a items ih =>
      have hrest := ih fun b hb => hitems b (mem_cons_of_mem a hb)
      simp [mapM_cons, h.decodes (hitems a mem_cons_self), hrest]
  plain items := .arr (forall_mem_map.mpr fun a _ => h.plain a)
  respects := h.respects.list

theorem faithful_string : Faithful .leaf str toString? fun _ => True where
  decodes _ := rfl
  plain := .str
  respects := respects_leaf _

theorem plain_record {members : List (String × Json)} (hmembers : ∀ j ∈ members.map (·.2), j.Plain) :
    (obj members).Plain :=
  .obj fun _ hmember => hmembers _ (mem_map_of_mem (f := (·.2)) hmember)

theorem plain_tagged {name : String} {content : Json} (hcontent : content.Plain) : (tagged name content).Plain :=
  plain_record (by simpa using hcontent)

end Parts

end Json

namespace IntRank

theorem decodes (rank : IntRank) : ofJson? rank.toJson = some rank := by cases rank <;> rfl

end IntRank

namespace FloatKind

theorem decodes (kind : FloatKind) : ofJson? kind.toJson = some kind := by cases kind <;> rfl

end FloatKind

namespace BinOp

theorem decodes (op : BinOp) : ofJson? op.toJson = some op := by cases op <;> rfl

end BinOp

namespace UnOp

theorem decodes (op : UnOp) : ofJson? op.toJson = some op := by cases op <;> rfl

end UnOp

namespace IntType

def schema : Schema := .record [("kind", .leaf, none), ("signed", .leaf, none)]

theorem faithful : Faithful schema toJson ofJson? fun _ => True where
  decodes {type} _ := by
    simp [ofJson?, toJson, Fields.ofJson?, Fields.required?, lookup_cons, IntRank.decodes, toBool?]
  plain type := plain_record (by simp [IntRank.toJson, ofNamed, Plain.str, Plain.bool])
  respects := respects_record (fun _ => rfl) (.bind (.taken (by simp)) fun _ =>
      .bind (.taken (by simp)) fun _ => .pure _) (by decide)

end IntType

namespace BaseType

def schema : Schema :=
  .variant [("Integer", IntType.schema), ("Floating", .leaf), ("Struct", .leaf), ("Union", .leaf)]

theorem faithful : Faithful schema toJson ofJson? fun _ => True where
  decodes {base} _ := by
    cases base with
    | void | function | struct | union => rfl
    | integer type => simp [ofJson?, toJson, tagged, variant?, IntType.faithful.decodes]
    | floating kind => simp [ofJson?, toJson, tagged, variant?, FloatKind.decodes]
  plain base := by
    cases base with
    | void | function => exact .str _
    | struct name | union name => exact plain_tagged (.str name)
    | integer type => exact plain_tagged (IntType.faithful.plain type)
    | floating kind => exact plain_tagged (.str _)
  respects := by
    refine respects_variant ?_
    simp only [forall_mem_cons, not_mem_nil, false_implies, implies_true, and_true]
    refine ⟨fun j j' halike => ?_, respects_leaf _, respects_leaf _, respects_leaf _⟩
    exact congrArg (Option.map BaseType.integer) (IntType.faithful.respects halike)

end BaseType

namespace CType

def schema : Schema :=
  .record [("base", BaseType.schema, none), ("pointer_depth", .leaf, some (.ofNat 0)), ("array_len", .leaf, some .null)]

/-- The numbers of a type fit the words in which they are read. -/
def Fits (type : CType) : Prop := type.pointers < 2 ^ 64 ∧ ∀ length ∈ type.length?, length < 2 ^ 64

theorem faithful : Faithful schema toJson ofJson? Fits where
  decodes {type} htype := by
    simp [ofJson?, toJson, Fields.ofJson?, Fields.required?, Fields.withDefault?, lookup_cons,
      BaseType.faithful.decodes, toNat?_ofNat htype.1, toOption?_ofOption htype.2]
  plain type := plain_record (by
    simp [BaseType.faithful.plain, plain_ofNat, plain_ofOption])
  respects :=
    respects_record (fun _ => rfl) (.bind (.required (by simp) BaseType.faithful.respects) fun _ =>
      .bind (.withDefault (.ofNat 0) (by simp) (respects_leaf _) rfl) fun _ =>
      .bind (.withDefault .null (by simp) (respects_leaf _) rfl) fun _ => .pure _) (by decide)

end CType

namespace Literal

def schema : Schema :=
  .variant [("Int", .record [("value", .leaf, none), ("ty", IntType.schema, none)]),
    ("Float", .record [("value", .leaf, none), ("kind", .leaf, none)]), ("Char", .leaf), ("Str", .leaf)]

/-- An integer fits a signed word, and a floating number is finite. -/
def Fits : Literal → Prop
  | .int value _ => -2 ^ 63 ≤ value ∧ value < 2 ^ 63
  | .float value _ => value.isFinite = true
  | .char _ | .str _ => True

theorem faithful (positional : Bool) : Faithful schema toJson (ofJson? positional) Fits where
  decodes {literal} hliteral := by
    cases literal with
    | int value type =>
      simp [ofJson?, toJson, tagged, variant?, fields?, Fields.ofJson?, Fields.required?,
        lookup_cons, toInt?_ofInt hliteral.1 hliteral.2, IntType.faithful.decodes]
    | float value kind =>
      simp [ofJson?, toJson, tagged, variant?, fields?, Fields.ofJson?, Fields.required?,
        lookup_cons, toDouble?_ofDouble hliteral, FloatKind.decodes]
    | char code =>
      have hcode := code.toNat_lt
      simp [ofJson?, toJson, tagged, variant?, toNat?_ofNat (show code.toNat < 2 ^ 64 by omega)]
      omega
    | str text => rfl
  plain literal := by
    cases literal with
    | int value type =>
      exact plain_tagged (plain_record (by simp [IntType.faithful.plain, plain_ofInt]))
    | float value kind =>
      exact plain_tagged (plain_record (by simp [plain_ofDouble, FloatKind.toJson, ofNamed, Plain.str]))
    | char code => exact plain_tagged (plain_ofNat _)
    | str text => exact plain_tagged (.str text)
  respects := by
    refine respects_variant ?_
    simp only [forall_mem_cons, not_mem_nil, false_implies, implies_true, and_true]
    refine ⟨?_, ?_, respects_leaf _, respects_leaf _⟩
    · exact respects_record (fun _ => rfl) (.bind (.taken (by simp)) fun _ =>
        .bind (.required (by simp) IntType.faithful.respects) fun _ => .pure _) (by decide)
    · exact respects_record (fun _ => rfl) (.bind (.taken (by simp)) fun _ =>
        .bind (.taken (by simp)) fun _ => .pure _) (by decide)

end Literal

namespace Clause

/-- The node that a clause refers to has an index that fits a word. -/
def Fits (clause : Clause) : Prop := ∀ id ∈ children [clause], id < 2 ^ 64

theorem faithful : Faithful .leaf toJson ofJson? Fits where
  decodes {clause} hclause := by
    cases clause with
    | numThreads count =>
      simp [ofJson?, toJson, tagged, variant?, toNat?_ofNat (hclause count (by simp [children]))]
    | privateVars names | firstPrivateVars names | sharedVars names =>
      have hnames := faithful_string.list.decodes (a := names) (by simp)
      simp [ofJson?, toJson, tagged, variant?, hnames]
    | noWait => rfl
  plain clause := by
    cases clause with
    | numThreads count => exact plain_tagged (plain_ofNat count)
    | privateVars names | firstPrivateVars names | sharedVars names =>
      exact plain_tagged (faithful_string.list.plain names)
    | noWait => exact .str _
  respects := respects_leaf _

end Clause

namespace Member

def schema : Schema := .record [("name", .leaf, none), ("ty", CType.schema, none)]

theorem faithful : Faithful schema toJson ofJson? fun member => member.type.Fits where
  decodes {member} hmember := by
    simp [ofJson?, toJson, Fields.ofJson?, Fields.required?, lookup_cons, toString?,
      CType.faithful.decodes hmember]
  plain member := plain_record (by simp [CType.faithful.plain, Plain.str])
  respects := respects_record (fun _ => rfl) (.bind (.taken (by simp)) fun _ =>
      .bind (.required (by simp) CType.faithful.respects) fun _ => .pure _) (by decide)

end Member

namespace Construct

/-- What each construct carries. -/
def cases : List (String × Schema) :=
  [("FileAst", .record [("items", .leaf, none)]),
    ("FuncDef", .record [("name", .leaf, none), ("return_type", CType.schema, none),
      ("params", .list Member.schema, none), ("body", .leaf, none)]),
    ("StructDecl", .record [("name", .leaf, none), ("fields", .list Member.schema, none),
      ("union", .leaf, some (.bool false))]),
    ("Decl", .record [("name", .leaf, none), ("ty", CType.schema, none), ("init", .leaf, some .null)]),
    ("Compound", .record [("items", .leaf, none)]),
    ("Assignment", .record [("lvalue", .leaf, none), ("rvalue", .leaf, none)]),
    ("If", .record [("cond", .leaf, none), ("then_branch", .leaf, none), ("else_branch", .leaf, some .null)]),
    ("While", .record [("cond", .leaf, none), ("body", .leaf, none)]),
    ("Goto", .record [("label", .leaf, none)]),
    ("Label", .record [("name", .leaf, none), ("stmt", .leaf, none)]),
    ("Return", .record [("expr", .leaf, some .null)]),
    ("FuncCall", .record [("callee", .leaf, none), ("args", .leaf, none)]),
    ("Id", .record [("name", .leaf, none)]),
    ("Constant", Literal.schema),
    ("BinaryOp", .record [("op", .leaf, none), ("left", .leaf, none), ("right", .leaf, none)]),
    ("UnaryOp", .record [("op", .leaf, none), ("operand", .leaf, none)]),
    ("Cast", .record [("ty", CType.schema, none), ("expr", .leaf, none)]),
    ("SizeOf", .record [("ty", CType.schema, none)]),
    ("ArrayRef", .record [("array", .leaf, none), ("index", .leaf, none)]),
    ("OmpParallel", .record [("clauses", .leaf, none), ("block", .leaf, none)]),
    ("OmpFor", .record [("clauses", .leaf, none), ("var", .leaf, none), ("init", .leaf, none), ("cond_op", .leaf, none),
      ("bound", .leaf, none), ("step_op", .leaf, none), ("step", .leaf, none), ("body", .leaf, none)]),
    ("OmpCritical", .record [("name", .leaf, some .null), ("block", .leaf, none)])]

def schema : Schema := .variant cases

/-- The types that a construct names. -/
def types : Construct → List CType
  | .funcDef _ returns params _ => returns :: params.map (·.type)
  | .structDecl _ fields _ => fields.map (·.type)
  | .decl _ type _ | .cast type _ | .sizeOf type => [type]
  | _ => []

/-- Indices and types fit words, and a constant is an integer that does or a finite number. -/
structure Fits (construct : Construct) : Prop where
  ids : ∀ id ∈ construct.children, id < 2 ^ 64
  types : ∀ type ∈ construct.types, type.Fits
  literal : ∀ literal, construct = .literal literal → literal.Fits

theorem fits_clauses {clauses : List Clause} (hids : ∀ id ∈ Clause.children clauses, id < 2 ^ 64) :
    ∀ clause ∈ clauses, clause.Fits := by
  intro clause hclause id hid
  refine hids id ?_
  obtain ⟨other, hother, hcount⟩ := mem_filterMap.mp hid
  rw [mem_singleton] at hother
  subst hother
  exact mem_filterMap.mpr ⟨other, hclause, hcount⟩

variable (positional : Bool)

theorem ofJson?_tagged (name : String) (content : Json) :
    ofJson? positional (tagged name content) = ofContent? positional (some content) name := rfl

theorem fields?_obj (names : List String) (members : List (String × Json)) :
    fields? positional names (some (.obj members)) = Fields.ofJson? names (.obj members) := rfl

theorem decodes {construct : Construct} (hfits : construct.Fits) :
    ofJson? positional construct.toJson = some construct := by
  obtain ⟨hids, htypes, hliteral⟩ := hfits
  have hid id (hmem : id ∈ construct.children) : (ofNat id).toNat? = some id :=
    toNat?_ofNat (hids id hmem)
  have htype type (hmem : type ∈ construct.types) : CType.ofJson? type.toJson = some type :=
    CType.faithful.decodes (htypes type hmem)
  have hnode? (node : Option NodeId) (hnode : ∀ id ∈ node, id ∈ construct.children) :=
    toOption?_ofOption fun id hmem => hids id (hnode id hmem)
  have hnodes nodes (hnodes : ∀ id ∈ nodes, id ∈ construct.children) :=
    faithful_nat.list.decodes fun id hmem => hids id (hnodes id hmem)
  have hmembers (members : List Member) (hmembers : members.map (·.type) ⊆ construct.types) :=
    Member.faithful.list.decodes fun member hmem => htypes _ (hmembers (mem_map_of_mem hmem))
  have hclauses (clauses : List Clause) (hclauses : ∀ id ∈ Clause.children clauses, id ∈ construct.children) :=
    Clause.faithful.list.decodes (fits_clauses fun id hmem => hids id (hclauses id hmem))
  cases construct with
  | empty => rfl
  | literal value =>
    simp [toJson, ofJson?_tagged, ofContent?, (Literal.faithful positional).decodes (hliteral value rfl)]
  | _ =>
    -- What is left reads record by record; every node and type in it is one of the construct's.
    simp only [children, types] at hid htype hnode? hnodes hmembers hclauses
    simp +contextual [toJson, ofJson?_tagged, ofContent?, fields?_obj, Fields.ofJson?, Fields.required?,
      Fields.withDefault?, optional?_eq, lookup_cons, toString?, toBool?, toOption?_ofText,
      BinOp.decodes, UnOp.decodes, hid, htype, hnode?, hnodes, hmembers, hclauses]

theorem plain (construct : Construct) : construct.toJson.Plain := by
  have hids ids : (ofList ofNat ids).Plain := faithful_nat.list.plain ids
  have hop (op : BinOp) : op.toJson.Plain := .str _
  cases construct with
  | empty => exact .str _
  | literal value => exact plain_tagged ((Literal.faithful true).plain value)
  | unary op operand =>
    have hop : op.toJson.Plain := .str _
    exact plain_tagged (plain_record (by simp [hop, plain_ofNat]))
  | _ =>
    exact plain_tagged (plain_record (by
      simp [hids, hop, plain_ofNat, plain_ofOption, Plain.str, Plain.bool, CType.faithful.plain,
        Member.faithful.list.plain, Clause.faithful.list.plain]))

theorem respects : schema.Respects (ofJson? positional) := by
  have htype := CType.faithful.respects
  have hmembers := Member.faithful.respects.list
  have hliteral {j j'} (halike : Literal.schema.Alike j j') :=
    congrArg (· >>= fun value => pure (Construct.literal value)) ((Literal.faithful positional).respects halike)
  refine respects_variant ?_
  simp only [cases, forall_mem_cons, not_mem_nil, false_implies, implies_true, and_true, ofJson?_tagged,
    ofContent?]
  -- One goal for each construct, in the order of the table; all but a constant are records.
  refine ⟨?_, ?_, ?_, ?_, ?_, ?_, ?_, ?_, ?_, ?_, ?_, ?_, ?_, fun _ _ => hliteral, ?_, ?_, ?_, ?_, ?_, ?_, ?_, ?_⟩
  all_goals refine respects_record (fun _ => rfl) ?_ (by decide)
  -- Each field is read as a type, as members, as one that may be left out, or as a leaf.
  all_goals repeat' first
    | exact .pure _
    | refine .bind (.required (by simp) htype) fun _ => ?_
    | refine .bind (.required (by simp) hmembers) fun _ => ?_
    | refine .bind (.optional (by simp)) fun _ => ?_
    | refine .bind (.withDefault (.bool false) (by simp) (respects_leaf _) rfl) fun _ => ?_
    | refine .bind (.taken (by simp)) fun _ => ?_

theorem faithful : Faithful schema toJson (ofJson? positional) Fits where
  decodes := decodes positional
  plain := plain
  respects := respects positional

end Construct

namespace Location

def schema : Schema := .record [("line", .leaf, none), ("column", .leaf, none)]

theorem faithful : Faithful schema toJson ofJson? fun location =>
    location.line < 2 ^ 64 ∧ location.column < 2 ^ 64 where
  decodes {location} hlocation := by
    simp [ofJson?, toJson, Fields.ofJson?, Fields.required?, lookup_cons, toNat?_ofNat hlocation.1,
      toNat?_ofNat hlocation.2]
  plain location := plain_record (by simp [plain_ofNat])
  respects :=
    respects_record (fun _ => rfl) (.bind (.taken (by simp)) fun _ =>
      .bind (.taken (by simp)) fun _ => .pure _) (by decide)

end Location

namespace Node

def schema : Schema :=
  .record [("kind", Construct.schema, none), ("location", Location.schema, some (Location.toJson ⟨0, 0⟩))]

structure Fits (node : Node) : Prop where
  construct : node.construct.Fits
  location : node.location.line < 2 ^ 64 ∧ node.location.column < 2 ^ 64

theorem faithful (positional : Bool) : Faithful schema toJson (ofJson? positional) Fits where
  decodes {node} hnode := by
    simp [ofJson?, toJson, Fields.ofJson?, Fields.required?, Fields.withDefault?, lookup_cons,
      (Construct.faithful positional).decodes hnode.construct, Location.faithful.decodes hnode.location]
  plain node := plain_record (by simp [Construct.plain, Location.faithful.plain])
  respects :=
    respects_record (fun _ => rfl) (.bind (.required (by simp) (Construct.respects positional)) fun _ =>
      .bind (.withDefault (Location.toJson ⟨0, 0⟩) (by simp) Location.faithful.respects
        (Location.faithful.decodes (by decide))) fun _ => .pure _) (by decide)

end Node

namespace Program

/-- The format of programs. -/
def schema : Schema := .record [("nodes", .list Node.schema, none), ("root", .leaf, none)]

/-- Every number of the program fits the word in which it is read, and every floating constant is
finite. -/
structure Fits (p : Program) : Prop where
  nodes : ∀ node ∈ p.nodes, node.Fits
  root : p.root < 2 ^ 64

theorem faithful (positional : Bool) : Faithful schema toJson (ofJson? positional) Fits where
  decodes {p} hp := by
    have hnodes := (Node.faithful positional).list.decodes (a := p.nodes.toList) fun node hnode =>
      hp.nodes node (Array.mem_toList_iff.mp hnode)
    simp [ofJson?, toJson, Fields.ofJson?, Fields.required?, lookup_cons, hnodes, toNat?_ofNat hp.root]
  plain p := plain_record (by simp [(Node.faithful true).list.plain, plain_ofNat])
  respects :=
    respects_record (fun _ => rfl) (.bind (.required (by simp) (Node.faithful positional).respects.list) fun _ =>
      .bind (.taken (by simp)) fun _ => .pure _) (by decide)

/-- **Programs survive being written.** What is written for a program is read back as that
program, also from its text, and so is every value that gives the same data; and values that
give the same data are read alike, whether they are programs or not. The text is what `Json.text`
writes, and is read by `Json.ofText?`; nothing is said of any other writer or reader. -/
theorem reads_back (positional : Bool) :
    (∀ p : Program, p.Fits → (ofText? p.toJson.text).bind (ofJson? positional) = some p ∧
      ∀ j, schema.Alike p.toJson j → ofJson? positional j = some p) ∧
    ∀ j j', schema.Alike j j' → ofJson? positional j = ofJson? positional j' := by
  have hfaithful := faithful positional
  refine ⟨fun p hp => ⟨?_, fun j halike => ?_⟩, fun j j' halike => hfaithful.respects halike⟩
  · rw [ofText?_text (hfaithful.plain p)]
    exact hfaithful.decodes hp
  · rw [← hfaithful.respects halike]
    exact hfaithful.decodes hp

/-- A declaration and the constant one tenth, which is not a finite sum of binary fractions. -/
def tenth : Program :=
  ⟨#[⟨.literal (.float ⟨0x3fb999999999999a⟩ .double), ⟨0, 0⟩⟩, ⟨.decl "x" .int (some 0), ⟨3, 1⟩⟩], 1⟩

/-- The same program with its members in another order, a remark, and no location of the constant. -/
def tenthRemarked : Json :=
  .obj [("root", .ofNat 1), ("remark", .str "by hand"),
    ("nodes", .arr [.obj [("kind", Construct.toJson (.literal (.float ⟨0x3fb999999999999a⟩ .double)))],
      Node.toJson ⟨.decl "x" .int (some 0), ⟨3, 1⟩⟩])]

theorem tenth_fits : tenth.Fits where
  root := by decide
  nodes := by
    have hconstant : (Construct.literal (.float ⟨0x3fb999999999999a⟩ .double)).Fits := by
      refine ⟨by simp [children], by simp [types], fun literal hliteral => ?_⟩
      cases hliteral
      exact show Double.isFinite _ = true by decide
    have hdecl : (Construct.decl "x" .int (some 0)).Fits := by
      refine ⟨by simp [children], ?_, fun literal hliteral => nomatch hliteral⟩
      simp [types, CType.Fits, CType.int, CType.integer, CType.plain]
    simp only [tenth, mem_toArray, forall_mem_cons, not_mem_nil, false_implies,
      implies_true, and_true]
    exact ⟨⟨hconstant, by decide⟩, ⟨hdecl, by decide⟩⟩

theorem tenthRemarked_alike : schema.Alike tenth.toJson tenthRemarked := by
  have hconstant : Node.schema.Alike (Node.toJson ⟨.literal (.float ⟨0x3fb999999999999a⟩ .double), ⟨0, 0⟩⟩)
      (.obj [("kind", Construct.toJson (.literal (.float ⟨0x3fb999999999999a⟩ .double)))]) :=
    .trans (.permute (.swap _ _ _)) (.omitted (mem_cons_of_mem _ mem_cons_self) (by simp))
  have hnodes := Alike.item [] [Node.toJson ⟨.decl "x" .int (some 0), ⟨3, 1⟩⟩] hconstant
  refine .trans (.field [] [("root", .ofNat 1)] mem_cons_self hnodes) (.trans (.permute (.swap _ _ _)) ?_)
  exact .trans (.extra (.str "by hand") (by simp)) (.permute (.swap ("root", ofNat 1) ("remark", str "by hand") _))

theorem tenth_reads_back :
    tenth.Fits ∧ (ofText? tenth.toJson.text).bind (ofJson? false) = some tenth ∧
      ofJson? false tenthRemarked = some tenth :=
  have hback := (reads_back false).1 tenth tenth_fits
  ⟨tenth_fits, hback.1, hback.2 tenthRemarked tenthRemarked_alike⟩

end Program

end CoreC
