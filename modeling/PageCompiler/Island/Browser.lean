import PageCompiler.Text.Search

/-!
The script that runs islands in a browser, without the islands themselves. Its operations on values
follow those of formulas and mutations.
-/

namespace PageCompiler.Island.Browser

def operations : List String :=
  [
    "(function () \x7b",
    "  \"use strict\";",
    "  var R = \x7b",
    "    num: function (v) \x7b return typeof v === \"number\" && isFinite(v); \x7d,",
    "    truthy: function (v) \x7b",
    "      if (v === null || v === undefined || v === " ++
      "false || v === 0 || v === \"\") return false;",
    "      if (Array.isArray(v)) return v.length > 0;",
    "      if (typeof v === \"object\") return Object.keys(v).length > 0;",
    "      return true;",
    "    \x7d,",
    "    text: function (v) \x7b",
    "      if (v === null || v === undefined) return \"\";",
    "      if (typeof v === \"object\") return JSON.stringify(v);",
    "      return String(v);",
    "    \x7d,",
    "    neg: function (v) \x7b return R.num(v) ? -v : null; \x7d,",
    "    op: function (name, l, r) \x7b",
    "      var n = R.num(l) && R.num(r);",
    "      switch (name) \x7b",
    "        case \"add\": return n ? l + r : R.text(l) + R.text(r);",
    "        case \"sub\": return n ? l - r : null;",
    "        case \"mul\": return n ? l * r : null;",
    "        case \"div\": return n && r !== 0 ? l / r : null;",
    "        case \"rem\": return n && r !== 0 ? l % r : null;",
    "        case \"eq\": return n ? l === r : JSON.stringify(l) === JSON.stringify(r);",
    "        case \"ne\": return !R.op(\"eq\", l, r);",
    "        case \"lt\": case \"le\": case \"gt\": case \"ge\":",
    "          if (!n && !(typeof l === \"string\" && typeof r === \"string\")) return false;",
    "          if (name === \"lt\") return l < r;",
    "          if (name === \"le\") return l <= r;",
    "          if (name === \"gt\") return l > r;",
    "          return l >= r;",
    "        case \"and\": return R.truthy(l) && R.truthy(r);",
    "        case \"or\": return R.truthy(l) || R.truthy(r);",
    "      \x7d",
    "      return null;",
    "    \x7d",
    "  \x7d;"]

def update : List String :=
  [
    "  function nclUpdate(island) \x7b",
    "    island.derived.forEach(function (d) \x7b",
    "      island.values[d.name] = d.compute(island.values[d.dependency]);",
    "    \x7d);",
    "    var nodes = island.root.querySelectorAll(\"[data-ncl-bind]\");",
    "    for (var i = 0; i < nodes.length; i++) \x7b",
    "      var name = nodes[i].getAttribute(\"data-ncl-bind\");",
    "      if (Object.prototype.hasOwnProperty.call(island.values, name)) \x7b",
    "        nodes[i].textContent = R.text(island.values[name]);",
    "      \x7d",
    "    \x7d",
    "  \x7d"]

def application : List String :=
  [
    "  function nclApply(island, action) \x7b",
    "    var current = island.values[action.target];",
    "    var next = action.operand;",
    "    if (action.op === \"increment\") next = R.op(\"add\", current, action.operand);",
    "    if (action.op === \"decrement\") next = R.op(\"sub\", current, action.operand);",
    "    island.values[action.target] = next;",
    "    nclUpdate(island);",
    "  \x7d"]

def attachment : List String :=
  [
    "  function nclAttach(island) \x7b",
    "    var root = island.root;",
    "    if (root.__nclAttached) return;",
    "    root.__nclAttached = true;",
    "    var elements = root.querySelectorAll(\"[data-ncl-action]\");",
    "    for (var i = 0; i < elements.length; i++) \x7b",
    "      var el = elements[i];",
    "      if (el.__nclBound) continue;",
    "      el.__nclBound = true;",
    "      el.getAttribute(\"data-ncl-action\").split(\" \").forEach(function (id) \x7b",
    "        var action = island.actions[id];",
    "        if (!action) return;",
    "        el.addEventListener(action.event, function () \x7b nclApply(island, action); \x7d);",
    "      \x7d);",
    "    \x7d",
    "    nclUpdate(island);",
    "  \x7d"]

def schedule : List String :=
  [
    "  function nclSchedule(island) \x7b",
    "    var attach = function () \x7b nclAttach(island); \x7d;",
    "    if (island.strategy === \"visible\" && \"IntersectionObserver\" in window) \x7b",
    "      var observer = new IntersectionObserver(function (entries) \x7b",
    "        for (var i = 0; i < entries.length; i++) \x7b",
    "          if (entries[i].isIntersecting) \x7b",
    "            observer.disconnect();",
    "            attach();",
    "            return;",
    "          \x7d",
    "        \x7d",
    "      \x7d);",
    "      observer.observe(island.root);",
    "    \x7d else if (island.strategy === \"idle\") \x7b",
    "      if (\"requestIdleCallback\" in window) window.requestIdleCallback(attach);",
    "      else setTimeout(attach, 1);",
    "    \x7d else if (island.strategy === \"media\" && island.media) \x7b",
    "      var query = window.matchMedia(island.media);",
    "      if (query.matches) \x7b",
    "        attach();",
    "      \x7d else \x7b",
    "        var onChange = function (event) \x7b",
    "          if (!event.matches) return;",
    "          if (query.removeEventListener) query.removeEventListener(\"change\", onChange);",
    "          attach();",
    "        \x7d;",
    "        if (query.addEventListener) query.addEventListener(\"change\", onChange);",
    "        else query.addListener(onChange);",
    "      \x7d",
    "    \x7d else \x7b",
    "      attach();",
    "    \x7d",
    "  \x7d"]

def register : List String :=
  [
    "  function nclRegister(def) \x7b",
    "    var root = document.querySelector('[data-ncl-island=\"' + def.id + '\"]');",
    "    if (!root) return;",
    "    var island = \x7b",
    "      root: root,",
    "      strategy: def.strategy,",
    "      media: def.media,",
    "      values: \x7b\x7d,",
    "      derived: def.derived,",
    "      actions: def.actions",
    "    \x7d;",
    "    for (var name in def.state) island.values[name] = def.state[name];",
    "    nclSchedule(island);",
    "  \x7d"]

def opening : String :=
  let groups := [operations, update, application, attachment, schedule, register]
  Text.join "\n" (groups.map fun lines => String.join (lines.map fun line => line ++ "\n"))

def closing : String := "\x7d)();\n"

end PageCompiler.Island.Browser
