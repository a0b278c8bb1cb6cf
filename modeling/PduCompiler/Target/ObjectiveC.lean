import PduCompiler.Target.Literal
import PduCompiler.Target.SourceFile
import PduCompiler.Text.Name

/-!
Classes in Objective-C, a header and an implementation each, with manual reference counting. Lists
of objects and dynamic lists are mutable arrays, fixed lists of scalars are C arrays.
-/

namespace PduCompiler.Target.ObjectiveC

open Text

structure ScalarNames where
  native : String := ""
  stream : String := ""
  number : String := ""
  value : String := ""

def namesOf (t : TypeName) : ScalarNames :=
  match t.scalar? with
  | some .uint8 => ⟨"uint8_t", "UnsignedByte", "UnsignedChar", "unsignedCharValue"⟩
  | some .int8 => ⟨"int8_t", "Byte", "Char", "charValue"⟩
  | some .uint16 => ⟨"uint16_t", "UnsignedShort", "UnsignedShort", "unsignedShortValue"⟩
  | some .int16 => ⟨"int16_t", "Short", "Short", "shortValue"⟩
  | some .uint32 => ⟨"uint32_t", "UnsignedInt", "UnsignedInt", "unsignedIntValue"⟩
  | some .int32 => ⟨"int32_t", "Int", "Int", "intValue"⟩
  | some .uint64 => ⟨"uint64_t", "UnsignedLong", "UnsignedLongLong", "unsignedLongLongValue"⟩
  | some .int64 => ⟨"int64_t", "Long", "LongLong", "longLongValue"⟩
  | some .float32 => ⟨"float", "Float", "Float", "floatValue"⟩
  | some .float64 => ⟨"double", "Double", "Double", "doubleValue"⟩
  | none => {}

def native (t : TypeName) : String := (namesOf t).native

def header : List String := notice.map (fun line => s!"// {line}") ++ [""]

def importLine (name : String) : String :=
  let file := quote (name ++ ".h")
  s!"#import {file}"

def docComment (text : String) : String := s!"/** {text} */"

def variableLine? (a : Attribute) : Option String :=
  match a.kind with
  | some (.primitive p) => some s!"  {native p.type} {a.name};"
  | some (.object name) => some s!"  {name}* {a.name};"
  | some (.fixedList n e) =>
    if e.isObject then some s!"  NSMutableArray* {a.name};"
    else some s!"  {native e.type} {a.name}[{n}];"
  | some (.dynamicList _ _) => some s!"  NSMutableArray* {a.name};"
  | none => none

def variableLines (p : ClassPlan) (a : Attribute) : Except RenderError (List String) :=
  match variableLine? a with
  | none => .error (withoutKind p a)
  | some line => .ok ((if a.comment == "" then [] else ["  " ++ docComment a.comment]) ++ [line])

def propertyLines (a : Attribute) : List String :=
  match a.kind with
  | some (.primitive p) => [s!"@property(readwrite, assign) {native p.type} {a.name};"]
  | some (.object name) => [s!"@property(readwrite, retain) {name}* {a.name};"]
  | some (.fixedList _ e) =>
    if e.isObject then [s!"@property(readwrite, retain) NSMutableArray* {a.name};"]
    else [s!"-({native e.type}*){a.name};"]
  | some (.dynamicList _ _) => [s!"@property(readwrite, retain) NSMutableArray* {a.name};"]
  | none => []

def accessorDeclarations (b : BitAccessor) : List String :=
  (if b.description == "" then [] else [docComment b.description]) ++ [
    s!"-({native b.type}){uncapitalized b.name};",
    s!"-(void)set{capitalized b.name}:({native b.type})value;"]

def headerText (p : ClassPlan) : Except RenderError String := do
  let c := p.description
  let fields ← c.attributes.mapM (variableLines p)
  let parent := if c.hasParent then c.parent else "NSObject"
  return unlines <|
    header ++
    ["#import <Foundation/Foundation.h>", "#import \"DataInput.h\"", "#import \"DataOutput.h\""] ++
    (references p).map importLine ++ [""] ++
    (if c.comment == "" then [] else [docComment c.comment]) ++
    [s!"@interface {c.name} : {parent}", "\x7b"] ++ fields.flatten ++ ["\x7d", ""] ++
    c.attributes.flatMap propertyLines ++
    ["",
      "-(id)init;",
      "-(void)marshalUsingStream:(DataOutput*)dataStream;",
      "-(void)unmarshalUsingStream:(DataInput*)dataStream;",
      "-(int)getMarshalledSize;",
      "-(BOOL)isEqual:(id)other;"] ++
    p.bitFields.flatMap accessorDeclarations ++ ["", "@end"]

def isScalarArray (a : Attribute) : Bool :=
  match a.kind with
  | some (.fixedList _ e) => !e.isObject
  | _ => false

def isOwned (a : Attribute) : Bool :=
  match a.kind with
  | some (.object _) => true
  | some (.dynamicList _ _) => true
  | some (.fixedList _ e) => e.isObject
  | _ => false

def initStep (a : Action) : Option (List String) :=
  match a.op with
  | .super => some []
  | .initValue | .assign => some [s!"    {a.attr} = {cLiteral a.type a.value};"]
  | .initObject => some [s!"    {a.attr} = [[{a.className} alloc] init];"]
  | .initArray => some [
      s!"    for(int idx = 0; idx < {a.length}; idx++)",
      s!"      {a.attr}[idx] = 0;"]
  | .initObjectArray => some [
      s!"    {a.attr} = [[NSMutableArray alloc] initWithCapacity:{a.length}];",
      s!"    for(int idx = 0; idx < {a.length}; idx++)",
      s!"      [{a.attr} addObject:[[[{a.className} alloc] init] autorelease]];"]
  | .initList => some [s!"    {a.attr} = [[NSMutableArray alloc] init];"]
  | _ => none

def marshalStep (a : Action) : Option (List String) :=
  let t := namesOf a.type
  match a.op with
  | .super => some ["  [super marshalUsingStream:dataStream];"]
  | .write => some [s!"  [dataStream write{t.stream}:{a.attr}];"]
  | .writeLength => some [s!"  [dataStream write{t.stream}:({t.native})[{a.list} count]];"]
  | .marshal => some [s!"  [{a.attr} marshalUsingStream:dataStream];"]
  | .writeArray => some [
      s!"  for(int idx = 0; idx < {a.length}; idx++)",
      s!"    [dataStream write{t.stream}:{a.attr}[idx]];"]
  | .marshalArray | .marshalList => some [
      s!"  for(int idx = 0; idx < [{a.attr} count]; idx++)",
      "  \x7b",
      s!"    {a.className}* element = [{a.attr} objectAtIndex:idx];",
      "    [element marshalUsingStream:dataStream];",
      "  \x7d"]
  | .writeList => some [
      s!"  for(int idx = 0; idx < [{a.attr} count]; idx++)",
      s!"    [dataStream write{t.stream}:[[{a.attr} objectAtIndex:idx] {t.value}]];"]
  | _ => none

def unmarshalStep (a : Action) : Option (List String) :=
  let t := namesOf a.type
  match a.op with
  | .super => some ["  [super unmarshalUsingStream:dataStream];"]
  | .read => some [s!"  {a.attr} = [dataStream read{t.stream}];"]
  | .unmarshal => some [s!"  [{a.attr} unmarshalUsingStream:dataStream];"]
  | .readArray => some [
      s!"  for(int idx = 0; idx < {a.length}; idx++)",
      s!"    {a.attr}[idx] = [dataStream read{t.stream}];"]
  | .unmarshalArray => some [
      s!"  for(int idx = 0; idx < [{a.attr} count]; idx++)",
      s!"    [[{a.attr} objectAtIndex:idx] unmarshalUsingStream:dataStream];"]
  | .readList => some [
      s!"  [{a.attr} removeAllObjects];",
      s!"  for(int idx = 0; idx < {a.count}; idx++)",
      s!"    [{a.attr} addObject:[NSNumber numberWith{t.number}:[dataStream read{t.stream}]]];"]
  | .unmarshalList => some [
      s!"  [{a.attr} removeAllObjects];",
      s!"  for(int idx = 0; idx < {a.count}; idx++)",
      "  \x7b",
      s!"    {a.className}* element = [[{a.className} alloc] init];",
      "    [element unmarshalUsingStream:dataStream];",
      s!"    [{a.attr} addObject:element];",
      "    [element release];",
      "  \x7d"]
  | _ => none

def sizeStep (a : Action) : Option (List String) :=
  match a.op with
  | .super => some ["  marshalSize += [super getMarshalledSize];"]
  | .sizeConst => some [s!"  marshalSize += {a.bytes}; // {a.attr}"]
  | .sizeObject => some [s!"  marshalSize += [{a.attr} getMarshalledSize];"]
  | .sizeArray | .sizeListObjects => some [
      s!"  for(int idx = 0; idx < [{a.attr} count]; idx++)",
      s!"    marshalSize += [[{a.attr} objectAtIndex:idx] getMarshalledSize];"]
  | .sizeList => some [s!"  marshalSize += [{a.attr} count] * {a.bytes};"]
  | _ => none

/-- The comparison of one attribute. Count fields are left out, since their lists are compared. -/
def equalityLines (a : Attribute) : List String :=
  let arrays := s!"  if(![{a.name} isEqualToArray:rhs->{a.name}]) ivarsEqual = NO;"
  match a.kind with
  | some (.primitive _) =>
    if a.isCountField then []
    else [s!"  if(!({a.name} == rhs->{a.name})) ivarsEqual = NO;"]
  | some (.object _) => [s!"  if(![{a.name} isEqual:rhs->{a.name}]) ivarsEqual = NO;"]
  | some (.fixedList n e) =>
    if e.isObject then [arrays]
    else [
      s!"  for(int idx = 0; idx < {n}; idx++)",
      s!"    if(!({a.name}[idx] == rhs->{a.name}[idx])) ivarsEqual = NO;"]
  | some (.dynamicList _ _) => [arrays]
  | none => []

def arrayAccessor (a : Attribute) : List String :=
  match a.kind with
  | some (.fixedList _ e) =>
    if e.isObject then []
    else [s!"-({native e.type}*){a.name}", "\x7b", s!"  return {a.name};", "\x7d", ""]
  | _ => []

def bitAccessor (b : BitAccessor) : List String :=
  let mask := hexLiteral b.narrowMask
  [s!"-({native b.type}){uncapitalized b.name}", "\x7b",
    s!"  return ({b.field} & {mask}) >> {b.shift};", "\x7d", "",
    s!"-(void)set{capitalized b.name}:({native b.type})value", "\x7b",
    s!"  {b.field} = ({b.field} & ~{mask}) | (value << {b.shift});", "\x7d", ""]

def implementationText (p : ClassPlan) : Except RenderError String := do
  let c := p.description
  let init ← linesOf p .init p.init initStep
  let marshal ← linesOf p .marshal p.marshal marshalStep
  let unmarshal ← linesOf p .unmarshal p.unmarshal unmarshalStep
  let size ← linesOf p .size p.size sizeStep
  let synthesized := (c.attributes.filter (!isScalarArray ·)).map (·.name)
  let inherited := if c.hasParent then "[super isEqual:rhs]" else "YES"
  return unlines <|
    header ++ [importLine c.name, "", s!"@implementation {c.name}", ""] ++
    (if synthesized.isEmpty then [] else
      let names := ", ".intercalate synthesized
      [s!"@synthesize {names};", ""]) ++
    ["-(id)init", "\x7b", "  self = [super init];", "  if(self)", "  \x7b"] ++ init ++
    ["  \x7d", "  return self;", "\x7d", "",
      "-(void)dealloc", "\x7b"] ++
    (c.attributes.filter isOwned).map (fun a => s!"  [{a.name} release];") ++
    ["  [super dealloc];", "\x7d", "",
      "-(void)marshalUsingStream:(DataOutput*)dataStream", "\x7b"] ++ marshal ++
    ["\x7d", "", "-(void)unmarshalUsingStream:(DataInput*)dataStream", "\x7b"] ++ unmarshal ++
    ["\x7d", "", "-(int)getMarshalledSize", "\x7b", "  int marshalSize = 0;", ""] ++ size ++
    ["  return marshalSize;", "\x7d", "",
      "-(BOOL)isEqual:(id)other", "\x7b",
      s!"  if(![other isKindOfClass:[{c.name} class]])", "    return NO;",
      s!"  {c.name}* rhs = ({c.name}*)other;",
      s!"  BOOL ivarsEqual = {inherited};", ""] ++
    c.attributes.flatMap equalityLines ++
    ["", "  return ivarsEqual;", "\x7d", ""] ++
    c.attributes.flatMap arrayAccessor ++
    p.bitFields.flatMap bitAccessor ++ ["@end"]

def classFiles (p : ClassPlan) : Except RenderError (List SourceFile) := do
  if let some e := floatBitField? p then throw e
  let declarations ← headerText p
  let implementation ← implementationText p
  return [{ name := p.name ++ ".h", content := declarations },
    { name := p.name ++ ".m", content := implementation }]

def moduleFile (p : Program) : SourceFile where
  name := "Pdus.h"
  content := unlines (header ++ ["#import <Foundation/Foundation.h>", ""] ++
    p.plans.map fun q => importLine q.name)

end PduCompiler.Target.ObjectiveC
