import SchemaByExample.Filter.Grammar

/-! The filters that are defined by filters. -/
namespace SchemaByExample.Filter.Prelude

/-- Each definition may use itself and those before it. -/
def source : String := "
def empty: \x7b\x7d[] as $x | .;
def not: if . then false else true end;

def select(f): if f then . else empty end;
def recurse(f): def rec: ., (f | rec); rec;
def recurse(f; cond): def rec: ., (f | select(cond) | rec); rec;
def recurse: recurse(.[]?);
def repeat(f): def rec: f, rec; rec;
def while(cond; f): def rec: if cond then ., (f | rec) else empty end; rec;
def until(cond; f): def rec: if cond then . else f | rec end; rec;

def isboolean: type == \"boolean\";
def isnumber: type == \"number\";
def isstring: type == \"string\";
def isarray: type == \"array\";
def isobject: type == \"object\";
def values: select(. != null);
def nulls: select(. == null);
def booleans: select(isboolean);
def numbers: select(isnumber);
def strings: select(isstring);
def arrays: select(isarray);
def objects: select(isobject);
def iterables: select(isarray or isobject);
def scalars: select(isarray or isobject | not);

def range($from; $upto; $by):
  if $by > 0 then $from | while(. < $upto; . + $by)
  elif $by < 0 then $from | while(. > $upto; . + $by)
  else $from | while(. != $upto; .) end;
def range($from; $upto): range($from; $upto; 1);
def range($upto): range(0; $upto; 1);

def map(f): [.[] | f];
def map_values(f): .[] |= f;
def add(f): reduce f as $x (null; . + $x);
def add: add(.[]);

def first: .[0];
def last: .[-1];
def nth($i): .[$i];
def nth(i; f): last(limit(i + 1; f));
def isempty(f): first((f | false), true);
def isvalid(f): try (f | true) catch false;
def any(f; cond): first((f | cond | select(.) | true), false);
def any(cond): any(.[]; cond);
def any: any(.);
def all(f; cond): first((f | cond | select(not) | false), true);
def all(cond): all(.[]; cond);
def all: all(.);

def keys: keys_unsorted | sort;
def to_entries: [keys_unsorted[] as $k | \x7bkey: $k, value: .[$k]\x7d];
def from_entries: map(\x7b(.key): .value\x7d) | add + \x7b\x7d;
def with_entries(f): to_entries | map(f) | from_entries;
def in(f): . as $x | f | has($x);
def inside(f): . as $x | f | contains($x);
def index($x): indices($x)[0];
def rindex($x): indices($x)[-1];

def flatten: [recurse(arrays[]) | select(isarray | not)];
def flatten($depth):
  if $depth > 0 then map(if isarray then flatten($depth - 1) else [.] end) | add else . end;
def min: min_by(.);
def max: max_by(.);
def unique_by(f): [group_by(f)[] | .[0]];
def unique: unique_by(.);
def join($sep): .[] |= tostring | .[:-1][] += $sep | add;
def transpose: [range([.[] | length] | max) as $i | [.[][$i]]];
def toarray: if isarray then . else [.] end;

def paths: path_values | .[0];
def paths(f): path_values | if .[1] | f then .[0] else empty end;
def getpath($path): reduce $path[] as $p (.; .[$p]);
def del(f): f |= empty;
def walk(f): def rec: (.[]? |= rec) | f; rec;
def tonumber: if isnumber then . else fromjson end;
def abs: if . < 0 then -. else . end;
def isnan: isnumber and . != .;
def isinfinite: . == infinite or . == -infinite;
def isfinite: isnumber and (isinfinite | not);
def isnormal: isnumber and (isnan or isinfinite or . == 0 | not);
def finites: select(isinfinite or isnan | not);
def normals: select(isnormal);
def debug: .;
def debug(f): (f | debug | empty), .;
def stderr: .;

def fmt_row(none; quoted): if . >= \"\" then quoted elif . == null then none else tojson end;
def @text: tostring;
def @json: tojson;
def @html: tostring | escape_html;
def @uri: tostring | encode_uri;
def @csv: .[] |= fmt_row(\"\"; \"\\\"\\(escape_csv)\\\"\") | join(\",\");
def @tsv: .[] |= fmt_row(\"\"; escape_tsv) | join(\"\\t\");
def @sh: [if isarray then .[] end | fmt_row(\"null\"; \"'\\(escape_sh)'\")] | join(\" \");
def @base64: tostring | encode_base64;
def @base64d: tostring | decode_base64;
"

def definitions : List Definition :=
  match Token.ofText source with
  | .error _ => []
  | .ok tokens =>
    match Grammar.run (Grammar.definitions source.length) tokens with
    | .error _ => []
    | .ok ds => ds

end SchemaByExample.Filter.Prelude
