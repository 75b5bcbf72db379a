import EffectChain.Catalog.Basic

/-!
# EffectChain.Catalog.Builtin

The effects every library starts with, in the namespaces `basics`, `filter` and `volume`.
-/

/-! ## basics

Generators, blends and plain image operations. -/

namespace EffectChain.Catalog.Builtin.Basics

/-- Fractal value noise. -/
def noiseEffect : Descriptor where
  name := "noise"
  description := "fractal value noise"
  starter := true
  params := [
    { name := "scale", type := "float", default := .int 1, min := some 0, max := some 100 },
    { name := "speed", type := "float", default := .float 0.1 },
    { name := "seed", type := "int", default := .int 0 },
    { name := "octaves", type := "int", default := .int 1, min := some 1, max := some 8 }]
  programs := .ofList [
    ("noise", {
      entry := "fs_main"
      wgsl := Text.ofLines [
        "struct Params \x7b",
        "    resolution: vec2<f32>,",
        "    time: f32,",
        "    scale: f32,",
        "    speed: f32,",
        "    seed: f32,",
        "    octaves: f32,",
        "\x7d",
        "",
        "@group(0) @binding(0) var<uniform> params: Params;",
        "",
        "fn hash(p: vec2<f32>) -> f32 \x7b",
        "    return fract(sin(dot(p, vec2<f32>(12.9898, 78.233)) + params.seed) * 43758.5453);",
        "\x7d",
        "",
        "@fragment",
        "fn fs_main(@builtin(position) pos: vec4<f32>) -> @location(0) vec4<f32> \x7b",
        "    let uv = pos.xy / params.resolution;",
        "    let t = params.time * params.speed;",
        "    var v = 0.0;",
        "    var amp = 0.5;",
        "    var freq = params.scale;",
        "    for (var i = 0.0; i < params.octaves; i = i + 1.0) \x7b",
        "        v = v + amp * hash(floor(uv * freq + vec2<f32>(t, t)));",
        "        amp = amp * 0.5;",
        "        freq = freq * 2.0;",
        "    \x7d",
        "    return vec4<f32>(v, v, v, 1.0);",
        "\x7d"] })]
  passes := [
    { program := "noise", outputs := .ofList [("color", "outputTex")] }]

/-- Fill with one color. -/
def solidEffect : Descriptor where
  name := "solid"
  description := "fill with one color"
  starter := true
  params := [
    { name := "color", type := "color", default := .text "#000000" }]
  programs := .ofList [
    ("solid", {
      entry := "fs_main"
      wgsl := Text.ofLines [
        "struct Params \x7b",
        "    color: vec4<f32>,",
        "\x7d",
        "",
        "@group(0) @binding(0) var<uniform> params: Params;",
        "",
        "@fragment",
        "fn fs_main(@builtin(position) pos: vec4<f32>) -> @location(0) vec4<f32> \x7b",
        "    return params.color;",
        "\x7d"] })]
  passes := [
    { program := "solid", outputs := .ofList [("color", "outputTex")] }]

/-- Linear two-color gradient. -/
def gradientEffect : Descriptor where
  name := "gradient"
  description := "linear two-color gradient"
  starter := true
  params := [
    { name := "angle", type := "float", default := .int 0 },
    { name := "start", type := "color", default := .text "#000000", uniform := "colorA" },
    { name := "end", type := "color", default := .text "#ffffff", uniform := "colorB" }]
  programs := .ofList [
    ("gradient", {
      entry := "fs_main"
      wgsl := Text.ofLines [
        "struct Params \x7b",
        "    resolution: vec2<f32>,",
        "    angle: f32,",
        "    colorA: vec4<f32>,",
        "    colorB: vec4<f32>,",
        "\x7d",
        "",
        "@group(0) @binding(0) var<uniform> params: Params;",
        "",
        "@fragment",
        "fn fs_main(@builtin(position) pos: vec4<f32>) -> @location(0) vec4<f32> \x7b",
        "    let uv = pos.xy / params.resolution - vec2<f32>(0.5, 0.5);",
        "    let a = radians(params.angle);",
        "    let t = clamp(dot(uv, vec2<f32>(cos(a), sin(a))) + 0.5, 0.0, 1.0);",
        "    return mix(params.colorA, params.colorB, t);",
        "\x7d"] })]
  passes := [
    { program := "gradient", outputs := .ofList [("color", "outputTex")] }]

/-- Sine stripes. -/
def oscEffect : Descriptor where
  name := "osc"
  description := "sine stripes"
  starter := true
  params := [
    { name := "frequency", type := "float", default := .int 10, min := some 0, max := some 200 },
    { name := "sync", type := "float", default := .float 0.1 },
    { name := "offset", type := "float", default := .int 0 }]
  programs := .ofList [
    ("osc", {
      entry := "fs_main"
      wgsl := Text.ofLines [
        "struct Params \x7b",
        "    resolution: vec2<f32>,",
        "    time: f32,",
        "    frequency: f32,",
        "    sync: f32,",
        "    offset: f32,",
        "\x7d",
        "",
        "@group(0) @binding(0) var<uniform> params: Params;",
        "",
        "@fragment",
        "fn fs_main(@builtin(position) pos: vec4<f32>) -> @location(0) vec4<f32> \x7b",
        "    let uv = pos.xy / params.resolution;",
        "    let v = 0.5 + 0.5 * sin(uv.x * params.frequency + params.time * params.sync + params.offset);",
        "    return vec4<f32>(v, v, v, 1.0);",
        "\x7d"] })]
  passes := [
    { program := "osc", outputs := .ofList [("color", "outputTex")] }]

/-- Start a chain from an existing surface. -/
def readEffect : Descriptor where
  name := "read"
  description := "start a chain from an existing surface"
  passthrough := true
  params := [
    { name := "tex", type := "surface", default := .text "o0" }]
  programs := .ofList [
    ("copy", {
      entry := "fs_main"
      wgsl := Text.ofLines [
        "@group(0) @binding(0) var src: texture_2d<f32>;",
        "@group(0) @binding(1) var smp: sampler;",
        "",
        "struct Params \x7b",
        "    resolution: vec2<f32>,",
        "\x7d",
        "",
        "@group(0) @binding(2) var<uniform> params: Params;",
        "",
        "@fragment",
        "fn fs_main(@builtin(position) pos: vec4<f32>) -> @location(0) vec4<f32> \x7b",
        "    return textureSample(src, smp, pos.xy / params.resolution);",
        "\x7d"] })]
  passes := [
    { program := "copy", inputs := .ofList [("src", "tex")],
      outputs := .ofList [("color", "outputTex")] }]

/-- Combine the chain with another surface. -/
def blendEffect : Descriptor where
  name := "blend"
  description := "combine the chain with another surface"
  params := [
    { name := "tex", type := "surface" },
    { name := "mode", type := "member", enum := "blend.mode", default := .text "normal" },
    { name := "amount", type := "float", default := .float 0.5, min := some 0, max := some 1 }]
  programs := .ofList [
    ("blend", {
      entry := "fs_main"
      wgsl := Text.ofLines [
        "@group(0) @binding(0) var base: texture_2d<f32>;",
        "@group(0) @binding(1) var layer: texture_2d<f32>;",
        "@group(0) @binding(2) var smp: sampler;",
        "",
        "struct Params \x7b",
        "    resolution: vec2<f32>,",
        "    mode: f32,",
        "    amount: f32,",
        "\x7d",
        "",
        "@group(0) @binding(3) var<uniform> params: Params;",
        "",
        "@fragment",
        "fn fs_main(@builtin(position) pos: vec4<f32>) -> @location(0) vec4<f32> \x7b",
        "    let uv = pos.xy / params.resolution;",
        "    let a = textureSample(base, smp, uv);",
        "    let b = textureSample(layer, smp, uv);",
        "    var c = b;",
        "    if (params.mode == 1.0) \x7b",
        "        c = a + b;",
        "    \x7d else if (params.mode == 2.0) \x7b",
        "        c = a * b;",
        "    \x7d else if (params.mode == 3.0) \x7b",
        "        c = vec4<f32>(1.0) - (vec4<f32>(1.0) - a) * (vec4<f32>(1.0) - b);",
        "    \x7d else if (params.mode == 4.0) \x7b",
        "        c = abs(a - b);",
        "    \x7d",
        "    return mix(a, c, params.amount);",
        "\x7d"] })]
  passes := [
    { program := "blend", inputs := .ofList [("base", "inputTex"), ("layer", "tex")],
      outputs := .ofList [("color", "outputTex")] }]

/-- Separable box blur. -/
def blurEffect : Descriptor where
  name := "blur"
  description := "separable box blur"
  params := [
    { name := "radius", type := "float", default := .int 1, min := some 0, max := some 64 }]
  programs := .ofList [
    ("blur", {
      entry := "fs_main"
      wgsl := Text.ofLines [
        "@group(0) @binding(0) var src: texture_2d<f32>;",
        "@group(0) @binding(1) var smp: sampler;",
        "",
        "struct Params \x7b",
        "    resolution: vec2<f32>,",
        "    radius: f32,",
        "    axis: f32,",
        "\x7d",
        "",
        "@group(0) @binding(2) var<uniform> params: Params;",
        "",
        "@fragment",
        "fn fs_main(@builtin(position) pos: vec4<f32>) -> @location(0) vec4<f32> \x7b",
        "    let uv = pos.xy / params.resolution;",
        "    let step = select(vec2<f32>(0.0, 1.0), vec2<f32>(1.0, 0.0), params.axis < 0.5) / params.resolution;",
        "    var sum = vec4<f32>(0.0);",
        "    var n = 0.0;",
        "    for (var i = -params.radius; i <= params.radius; i = i + 1.0) \x7b",
        "        sum = sum + textureSample(src, smp, uv + step * i);",
        "        n = n + 1.0;",
        "    \x7d",
        "    return sum / n;",
        "\x7d"] })]
  passes := [
    { name := "horizontal", program := "blur", inputs := .ofList [("src", "inputTex")],
      outputs := .ofList [("color", "horizontal")], uniforms := .ofList [("axis", .int 0)] },
    { name := "vertical", program := "blur", inputs := .ofList [("src", "horizontal")],
      outputs := .ofList [("color", "outputTex")], uniforms := .ofList [("axis", .int 1)],
      skipIf := "radius == 0" }]
  textures := .ofList [("horizontal", .surface)]

/-- Mix the chain into the previous frame of a feedback surface. -/
def trailEffect : Descriptor where
  name := "trail"
  description := "mix the chain into the previous frame of a feedback surface"
  params := [
    { name := "decay", type := "float", default := .float 0.9, min := some 0, max := some 1 }]
  programs := .ofList [
    ("trail", {
      entry := "fs_main"
      wgsl := Text.ofLines [
        "@group(0) @binding(0) var src: texture_2d<f32>;",
        "@group(0) @binding(1) var prev: texture_2d<f32>;",
        "@group(0) @binding(2) var smp: sampler;",
        "",
        "struct Params \x7b",
        "    resolution: vec2<f32>,",
        "    decay: f32,",
        "\x7d",
        "",
        "@group(0) @binding(3) var<uniform> params: Params;",
        "",
        "@fragment",
        "fn fs_main(@builtin(position) pos: vec4<f32>) -> @location(0) vec4<f32> \x7b",
        "    let uv = pos.xy / params.resolution;",
        "    return max(textureSample(src, smp, uv), textureSample(prev, smp, uv) * params.decay);",
        "\x7d"] })]
  passes := [
    { program := "trail", inputs := .ofList [("src", "inputTex"), ("prev", "feedback")],
      outputs := .ofList [("color", "outputTex")] }]

/-- The catalog of the namespace `basics`. -/
def file : CatalogFile where
  space := "basics"
  enums :=
    [("blend", .map
      [("mode", .map [("normal", .int 0), ("add", .int 1), ("multiply", .int 2), ("screen", .int 3),
        ("difference", .int 4)])])]
  effects := [noiseEffect, solidEffect, gradientEffect, oscEffect, readEffect, blendEffect,
    blurEffect, trailEffect].map
    (CatalogFile.adopt "basics" "")
  origin := "builtin/basics.yaml"

end EffectChain.Catalog.Builtin.Basics

/-! ## filter

Image filters. -/

namespace EffectChain.Catalog.Builtin.Filter

/-- Iterated blur with a persistent ping-pong buffer. -/
def blurEffect : Descriptor where
  name := "blur"
  description := "iterated blur with a persistent ping-pong buffer"
  params := [
    { name := "radius", type := "float", default := .int 2, min := some 0, max := some 32 },
    { name := "passes", type := "int", default := .int 1, min := some 1, max := some 16 }]
  programs := .ofList [
    ("blur", {
      entry := "fs_main"
      wgsl := Text.ofLines [
        "@group(0) @binding(0) var src: texture_2d<f32>;",
        "@group(0) @binding(1) var smp: sampler;",
        "",
        "struct Params \x7b",
        "    resolution: vec2<f32>,",
        "    radius: f32,",
        "\x7d",
        "",
        "@group(0) @binding(2) var<uniform> params: Params;",
        "",
        "@fragment",
        "fn fs_main(@builtin(position) pos: vec4<f32>) -> @location(0) vec4<f32> \x7b",
        "    let uv = pos.xy / params.resolution;",
        "    let d = params.radius / params.resolution;",
        "    var sum = textureSample(src, smp, uv);",
        "    sum = sum + textureSample(src, smp, uv + vec2<f32>(d.x, 0.0));",
        "    sum = sum + textureSample(src, smp, uv - vec2<f32>(d.x, 0.0));",
        "    sum = sum + textureSample(src, smp, uv + vec2<f32>(0.0, d.y));",
        "    sum = sum + textureSample(src, smp, uv - vec2<f32>(0.0, d.y));",
        "    return sum / 5.0;",
        "\x7d"] })]
  passes := [
    { name := "seed", program := "blur", inputs := .ofList [("src", "inputTex")],
      outputs := .ofList [("color", "globalBlur")] },
    { name := "iterate", program := "blur", inputs := .ofList [("src", "globalBlur")],
      outputs := .ofList [("color", "globalBlur")], count := .text "passes - 1",
      runIf := "passes > 1" },
    { name := "resolve", program := "blur", inputs := .ofList [("src", "globalBlur")],
      outputs := .ofList [("color", "outputTex")], uniforms := .ofList [("radius", .int 0)] }]
  textures := .ofList [("globalBlur", .surface)]

/-- Gamma, inversion and tint. -/
def levelsEffect : Descriptor where
  name := "levels"
  description := "gamma, inversion and tint"
  params := [
    { name := "gamma", type := "float", default := .int 1, min := some 0.1, max := some 10 },
    { name := "invert", type := "boolean", default := .bool false },
    { name := "tint", type := "vec3", default := .list [.int 1, .int 1, .int 1] },
    { name := "wrap", type := "member", default := .text "clamp",
      choices := .ofList [("clamp", 0), ("repeat", 1)] }]
  programs := .ofList [
    ("levels", {
      entry := "fs_main"
      wgsl := Text.ofLines [
        "@group(0) @binding(0) var src: texture_2d<f32>;",
        "@group(0) @binding(1) var smp: sampler;",
        "",
        "struct Params \x7b",
        "    resolution: vec2<f32>,",
        "    gamma: f32,",
        "    invert: f32,",
        "    tint: vec3<f32>,",
        "    wrap: f32,",
        "\x7d",
        "",
        "@group(0) @binding(2) var<uniform> params: Params;",
        "",
        "@fragment",
        "fn fs_main(@builtin(position) pos: vec4<f32>) -> @location(0) vec4<f32> \x7b",
        "    var uv = pos.xy / params.resolution;",
        "    if (params.wrap > 0.5) \x7b",
        "        uv = fract(uv);",
        "    \x7d",
        "    let c = textureSample(src, smp, uv);",
        "    var rgb = pow(c.rgb, vec3<f32>(1.0 / params.gamma));",
        "    if (params.invert > 0.5) \x7b",
        "        rgb = vec3<f32>(1.0) - rgb;",
        "    \x7d",
        "    return vec4<f32>(rgb * params.tint, c.a);",
        "\x7d"] })]
  passes := [
    { program := "levels", inputs := .ofList [("src", "inputTex")],
      outputs := .ofList [("color", "outputTex")] }]

/-- Keep the chain where another surface is bright. -/
def maskEffect : Descriptor where
  name := "mask"
  description := "keep the chain where another surface is bright"
  params := [
    { name := "tex", type := "surface" },
    { name := "threshold", type := "float", default := .float 0.5, min := some 0, max := some 1 }]
  programs := .ofList [
    ("mask", {
      entry := "fs_main"
      wgsl := Text.ofLines [
        "@group(0) @binding(0) var src: texture_2d<f32>;",
        "@group(0) @binding(1) var key: texture_2d<f32>;",
        "@group(0) @binding(2) var smp: sampler;",
        "",
        "struct Params \x7b",
        "    resolution: vec2<f32>,",
        "    threshold: f32,",
        "\x7d",
        "",
        "@group(0) @binding(3) var<uniform> params: Params;",
        "",
        "@fragment",
        "fn fs_main(@builtin(position) pos: vec4<f32>) -> @location(0) vec4<f32> \x7b",
        "    let uv = pos.xy / params.resolution;",
        "    let k = textureSample(key, smp, uv);",
        "    let lum = dot(k.rgb, vec3<f32>(0.299, 0.587, 0.114));",
        "    return textureSample(src, smp, uv) * step(params.threshold, lum);",
        "\x7d"] })]
  passes := [
    { program := "mask", inputs := .ofList [("src", "inputTex"), ("key", "tex")],
      outputs := .ofList [("color", "outputTex")] }]

/-- The catalog of the namespace `filter`. -/
def file : CatalogFile where
  space := "filter"
  effects := [blurEffect, levelsEffect, maskEffect].map
    (CatalogFile.adopt "filter" "")
  origin := "builtin/filter.yaml"

end EffectChain.Catalog.Builtin.Filter

/-! ## volume

Effects on volumes, behind the flag for volumes. -/

namespace EffectChain.Catalog.Builtin.Volume

/-- Signed-distance sphere rasterized into a volume. -/
def sphereEffect : Descriptor where
  name := "sphere"
  description := "signed-distance sphere rasterized into a volume"
  starter := true
  params := [
    { name := "volumeSize", type := "int", default := .int 64, min := some 8, max := some 256,
      inherits := true },
    { name := "radius", type := "float", default := .float 0.5, min := some 0, max := some 1 }]
  programs := .ofList [
    ("sphere", {
      entry := "cs_main"
      wgsl := Text.ofLines [
        "struct Params \x7b",
        "    volumeSize: f32,",
        "    radius: f32,",
        "\x7d",
        "",
        "@group(0) @binding(0) var<uniform> params: Params;",
        "@group(0) @binding(1) var dst: texture_storage_3d<rgba16float, write>;",
        "",
        "@compute @workgroup_size(4, 4, 4)",
        "fn cs_main(@builtin(global_invocation_id) id: vec3<u32>) \x7b",
        "    let p = vec3<f32>(id) / params.volumeSize - vec3<f32>(0.5);",
        "    let d = length(p) - params.radius * 0.5;",
        "    textureStore(dst, id, vec4<f32>(d, d, d, 1.0));",
        "\x7d"] })]
  passes := [
    { program := "sphere", kind := .compute, workgroup := [4, 4, 4],
      outputs := .ofList [("dst", "outputTex3d")] }]

/-- Value-noise density volume. -/
def cloudEffect : Descriptor where
  name := "cloud"
  description := "value-noise density volume"
  starter := true
  params := [
    { name := "volumeSize", type := "int", default := .int 64, min := some 8, max := some 256,
      inherits := true },
    { name := "scale", type := "float", default := .int 4, min := some 0, max := some 64 }]
  programs := .ofList [
    ("cloud", {
      entry := "cs_main"
      wgsl := Text.ofLines [
        "struct Params \x7b",
        "    time: f32,",
        "    volumeSize: f32,",
        "    scale: f32,",
        "\x7d",
        "",
        "@group(0) @binding(0) var<uniform> params: Params;",
        "@group(0) @binding(1) var dst: texture_storage_3d<rgba16float, write>;",
        "",
        "@compute @workgroup_size(4, 4, 4)",
        "fn cs_main(@builtin(global_invocation_id) id: vec3<u32>) \x7b",
        "    let p = floor(vec3<f32>(id) / params.volumeSize * params.scale);",
        "    let v = fract(sin(dot(p, vec3<f32>(12.9898, 78.233, 37.719)) + params.time) * 43758.5453);",
        "    textureStore(dst, id, vec4<f32>(v, v, v, v));",
        "\x7d"] })]
  passes := [
    { program := "cloud", kind := .compute, workgroup := [4, 4, 4],
      outputs := .ofList [("dst", "outputTex3d")] }]

/-- Render the chain's volume to the screen. -/
def raymarchEffect : Descriptor where
  name := "raymarch"
  description := "render the chain's volume to the screen"
  params := [
    { name := "volumeSize", type := "int", default := .int 64, min := some 8, max := some 256,
      inherits := true, requires := "inputTex3d" },
    { name := "density", type := "float", default := .int 1, min := some 0, max := some 10 },
    { name := "steps", type := "int", default := .int 64, min := some 1, max := some 256 }]
  programs := .ofList [
    ("raymarch", {
      entry := "fs_main"
      wgsl := Text.ofLines [
        "@group(0) @binding(0) var vol: texture_3d<f32>;",
        "@group(0) @binding(1) var smp: sampler;",
        "",
        "struct Params \x7b",
        "    resolution: vec2<f32>,",
        "    volumeSize: f32,",
        "    density: f32,",
        "    steps: f32,",
        "\x7d",
        "",
        "@group(0) @binding(2) var<uniform> params: Params;",
        "",
        "@fragment",
        "fn fs_main(@builtin(position) pos: vec4<f32>) -> @location(0) vec4<f32> \x7b",
        "    let uv = pos.xy / params.resolution;",
        "    var acc = 0.0;",
        "    for (var i = 0.0; i < params.steps; i = i + 1.0) \x7b",
        "        let s = textureSample(vol, smp, vec3<f32>(uv, i / params.steps));",
        "        acc = acc + max(0.0, -s.r) * params.density / params.steps;",
        "    \x7d",
        "    return vec4<f32>(acc, acc, acc, 1.0);",
        "\x7d"] })]
  passes := [
    { program := "raymarch", inputs := .ofList [("vol", "inputTex3d")],
      outputs := .ofList [("color", "outputTex")] }]

/-- Scatter points from the chain's image into a geometry buffer. -/
def scatterEffect : Descriptor where
  name := "scatter"
  description := "scatter points from the chain's image into a geometry buffer"
  params := [
    { name := "count", type := "int", default := .int 1024, min := some 1, max := some 65536 }]
  programs := .ofList [
    ("scatter", {
      entry := "cs_main"
      wgsl := Text.ofLines [
        "@group(0) @binding(0) var src: texture_2d<f32>;",
        "",
        "struct Params \x7b",
        "    count: f32,",
        "\x7d",
        "",
        "@group(0) @binding(1) var<uniform> params: Params;",
        "@group(0) @binding(2) var dst: texture_storage_2d<rgba32float, write>;",
        "",
        "@compute @workgroup_size(64, 1, 1)",
        "fn cs_main(@builtin(global_invocation_id) id: vec3<u32>) \x7b",
        "    let c = textureLoad(src, vec2<i32>(i32(id.x), 0), 0);",
        "    textureStore(dst, vec2<i32>(i32(id.x), 0), c);",
        "\x7d"] })]
  passes := [
    { program := "scatter", kind := .compute, workgroup := [64],
      inputs := .ofList [("src", "inputTex")], outputs := .ofList [("dst", "outputGeo")] }]

/-- Draw the chain's geometry buffer as points. -/
def splatEffect : Descriptor where
  name := "splat"
  description := "draw the chain's geometry buffer as points"
  params := [
    { name := "size", type := "float", default := .int 2, min := some 0, max := some 32 }]
  programs := .ofList [
    ("splat", {
      entry := "fs_main"
      wgsl := Text.ofLines [
        "@group(0) @binding(0) var points: texture_2d<f32>;",
        "",
        "struct Params \x7b",
        "    resolution: vec2<f32>,",
        "    size: f32,",
        "\x7d",
        "",
        "@group(0) @binding(1) var<uniform> params: Params;",
        "",
        "@fragment",
        "fn fs_main(@builtin(position) pos: vec4<f32>) -> @location(0) vec4<f32> \x7b",
        "    let p = textureLoad(points, vec2<i32>(0, 0), 0);",
        "    let d = distance(pos.xy, p.xy * params.resolution);",
        "    let v = 1.0 - step(params.size, d);",
        "    return vec4<f32>(v, v, v, 1.0);",
        "\x7d"] })]
  passes := [
    { program := "splat", inputs := .ofList [("points", "inputGeo")],
      outputs := .ofList [("color", "outputTex")] }]

/-- The catalog of the namespace `volume`. -/
def file : CatalogFile where
  space := "volume"
  flag := "volumes"
  effects := [sphereEffect, cloudEffect, raymarchEffect, scatterEffect, splatEffect].map
    (CatalogFile.adopt "volume" "volumes")
  origin := "builtin/volume.yaml"

end EffectChain.Catalog.Builtin.Volume

/-! ## the catalogs -/

namespace EffectChain

/-- The built-in catalog files in the order they are installed in. -/
def Catalog.builtinFiles : List CatalogFile :=
  [Catalog.Builtin.Basics.file, Catalog.Builtin.Filter.file, Catalog.Builtin.Volume.file]

/-- A library with the built-in catalogs installed. -/
def Library.builtin : Library :=
  Catalog.builtinFiles.foldl (fun l f => (l.install f).1) {}

end EffectChain
