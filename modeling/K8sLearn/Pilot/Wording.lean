import K8sLearn.Pilot.Worker

/-! # Answers without a language model

Where the language model gives no text, the rule worker answers from what is written here:
about four well-known papers from their abstracts, and about five concepts from general
knowledge.
-/

namespace K8sLearn.Pilot

def wantsDeepAnalysis (query : Str) : Bool :=
  Str.containsAny ["详细".toList, "原理".toList, "深入".toList, "展开".toList, "机制".toList,
    "结构".toList, "逐步".toList, "为什么".toList] query

section

variable (lower : Str → Str)

def extractConcept (query : Str) : Str × Str :=
  let q := lower query
  if "cnn".toList <:+: q ∨ "convolutional neural network".toList <:+: q then
    ("CNN（卷积神经网络）".toList, "CNN convolutional neural network image classification".toList)
  else if "rag".toList <:+: q then
    ("RAG（检索增强生成）".toList, "retrieval augmented generation".toList)
  else if "transformer".toList <:+: q then
    ("Transformer".toList, "Transformer attention neural network".toList)
  else if "llm".toList <:+: q then
    ("LLM（大语言模型）".toList, "large language model transformer".toList)
  else if "lstm".toList <:+: q then ("LSTM".toList, "LSTM long short term memory".toList)
  else if "gru".toList <:+: q then ("GRU".toList, "GRU gated recurrent unit".toList)
  else if "bert".toList <:+: q then ("BERT".toList, "BERT bidirectional transformer".toList)
  else ("技术主题".toList, query)

def summarizeCn (title abstract query : Str) (chunks : List Str) : Str :=
  let t := lower title
  let a := lower abstract
  if "attention is all you need".toList <:+: t ∧ "transformer".toList <:+: a then
    if wantsDeepAnalysis query then
      let evidenceNote :=
        if chunks = [] then []
        else "\n\n正文证据片段：\n".toList ++
          Str.join "\n".toList ((chunks.take 3).map fun c => "- ".toList ++ c.take 260)
      "这篇论文的核心方法是 Transformer，它把序列建模从 RNN/CNN ".toList ++
        "的逐步递归或局部卷积，改成了完全基于注意力机制的并行建模。\n\n".toList ++
        "1. 自注意力机制：模型先把每个 token 映射成 Query、Key、Value 三组向量。".toList ++
        "某个位置要更新表示时，会用 Query 和所有位置的 Key 计算相关性，再对 Value ".toList ++
        "加权求和。这样每个词都能直接关注句子中任意位置的信息，不需要像 RNN ".toList ++
        "那样一步步传递上下文。\n\n".toList ++
        "2. 缩放点积注意力：注意力分数由 Query 和 Key 的点积得到，并除以维度平方根，".toList ++
        "避免维度较大时分数过大导致 softmax 梯度不稳定。随后 softmax 得到权重，".toList ++
        "再加权汇聚 Value。\n\n".toList ++
        "3. 多头注意力：论文不是只做一次注意力，而是把表示拆成多个子空间并行计算。".toList ++
        "不同头可以学习不同关系，例如词法依赖、长距离语义关联、位置关系等，".toList ++
        "最后把多个头的结果拼接起来。\n\n".toList ++
        "4. 位置编码：由于纯注意力本身不天然包含词序，论文加入位置编码，".toList ++
        "把序列位置信息注入词向量。这样模型既能并行处理序列，又能保留顺序信息。\n\n".toList ++
        "5. Encoder-Decoder 结构：编码器负责把源句子编码成上下文表示；".toList ++
        "解码器在生成目标句子时，一方面看已经生成的目标词，".toList ++
        "另一方面通过交叉注意力关注源句子表示。\n\n".toList ++
        "6. 前馈网络、残差连接和归一化：每层注意力之后接位置前馈网络，并使用残差连接与 ".toList ++
        "LayerNorm 稳定深层训练。\n\n".toList ++
        "从原理上看，Transformer 的优势在于缩短了长距离依赖路径，提升并行计算能力，".toList ++
        "并减少 RNN 顺序计算带来的训练瓶颈。摘要中可直接核验的证据包括：论文提出 ".toList ++
        "Transformer、完全基于 attention、去除 recurrence/convolution，".toList ++
        "并在机器翻译任务上取得 BLEU 改进。".toList ++ evidenceNote
    else
      "论文提出 Transformer 架构，仅使用注意力机制完成序列转换，".toList ++
      "去除了循环网络和卷积网络；实验显示该架构在机器翻译任务上取得了较好的效果，".toList ++
      "并且更易并行训练。".toList
  else if "bert".toList <:+: t ∧ "bidirectional".toList <:+: a then
    "论文提出 BERT 预训练方法，通过双向 Transformer 表示学习语言上下文，".toList ++
      "再将预训练模型用于下游自然语言处理任务。".toList
  else if "residual".toList <:+: t ∧ "residual".toList <:+: a then
    "论文研究残差学习结构，通过学习残差映射缓解深层网络训练困难，".toList ++
      "并在图像识别任务中验证了该方法。".toList
  else if "retrieval".toList <:+: a ∧ ("augmented".toList <:+: a ∨ "generation".toList <:+: a) then
    "公开摘要显示，该研究围绕检索增强生成展开，将外部文档检索与文本生成结合，".toList ++
      "以补充模型参数之外的信息。".toList
  else "公开摘要围绕《".toList ++ title ++
    "》展开。当前系统只对摘要中的主题和结构化元数据做保守归纳，".toList ++
      "未获得足够证据的细节不会自行补全。".toList

end

def conceptFallback (concept : Str) : Str :=
  if "CNN".toList <+: concept then
    "通用知识解释：CNN，即卷积神经网络，是一种主要用于图像、语音、".toList ++
      "时序和局部结构数据的深度学习模型。\n\n".toList ++
      "1. 核心思想：CNN 假设数据中存在局部相关性。例如图像中相邻像素往往共同构成边缘、".toList ++
      "纹理和形状。卷积层用一组可学习的小卷积核在输入上滑动，提取局部模式。\n\n".toList ++
      "2. 卷积层：卷积核会在不同空间位置共享参数，所以同一个特征检测器可以在整张图上复".toList ++
      "用。这带来两个好处：参数量远少于全连接网络，并且对目标位置变化更稳健。\n\n".toList ++
      "3. 激活函数：卷积结果通常接 ReLU 等非线性函数，让模型能够表达复杂模式，".toList ++
      "而不是只做线性滤波。\n\n".toList ++
      "4. 池化或下采样：池化层会压缩空间尺寸，保留显著响应，降低计算量，".toList ++
      "并增强一定程度的平移不变性。现代 CNN 也常用步幅卷积替代传统池化。\n\n".toList ++
      "5. 层级特征：浅层卷积通常学习边缘、角点、颜色纹理；中层学习局部部件；".toList ++
      "深层学习目标整体语义。这个层级抽象是 CNN 在视觉任务中有效的重要原因。\n\n".toList ++
      "6. 训练方式：CNN 通过反向传播学习卷积核参数。损失函数根据任务选择，".toList ++
      "例如分类用交叉熵，检测和分割会组合分类、定位、掩码等损失。\n\n".toList ++
      "7. 典型结构：经典 CNN 通常由卷积、归一化、激活、下采样和分类头组成。AlexNet、".toList ++
      "VGG、ResNet、Inception、MobileNet、Mask R-CNN 都是在这个范式上演化出来的。\n\n".toList ++
      "8. 优点：局部连接、参数共享、计算高效、适合图像结构；缺点是对长距离依赖建模较弱，".toList ++
      "感受野需要靠堆叠层数扩大，对旋转、尺度变化通常需要数据增强或结构改进。\n\n".toList ++
      "9. 和 Transformer 的区别：CNN 更偏局部归纳偏置，天然适合提取局部空间模式；".toList ++
      "Transformer 依赖注意力机制，能直接建模全局关系，但通常需要更多数据和计算。".toList
  else if "RAG".toList <+: concept then
    "通用知识解释：RAG 是检索增强生成。它先从外部知识库检索相关证据，".toList ++
      "再让生成模型基于证据回答，从而降低幻觉并提升知识可更新性。核心流程包括查询改写、".toList ++
      "召回、重排、上下文构造、生成和引用校验。".toList
  else if "Transformer".toList <+: concept then
    "通用知识解释：Transformer 以自注意力为核心，通过 Query、Key、Value 计算 token ".toList ++
      "之间的相关性，并用多头注意力学习不同子空间关系；位置编码提供顺序信息，前馈网络、".toList ++
      "残差连接和归一化稳定训练。".toList
  else if "LSTM".toList <+: concept then
    "通用知识解释：LSTM（长短期记忆网络）是一种特殊的循环神经网络，".toList ++
      "通过门控机制解决长序列梯度消失问题。\n\n".toList ++
      "1. 核心思想：传统 RNN 在处理长序列时，梯度会随时间步指数衰减或爆炸，".toList ++
      "难以学习长距离依赖。LSTM 引入细胞状态和三个门（遗忘门、输入门、输出门），".toList ++
      "让信息选择性通过，从而保留长期记忆。\n\n".toList ++
      "2. 遗忘门：决定从细胞状态中丢弃什么信息。它查看上一隐藏状态和当前输入，输出 0 到 ".toList ++
      "1 之间的值，1 表示完全保留，0 表示完全丢弃。\n\n".toList ++
      "3. 输入门：决定哪些新信息被存入细胞状态。它包含一个 sigmoid 层决定更新哪些值，".toList ++
      "以及一个 tanh 层生成候选值。\n\n".toList ++
      "4. 细胞状态更新：遗忘门和输入门的输出共同决定细胞状态的更新。".toList ++
      "旧状态乘以遗忘门输出，再加上输入门生成的候选值。\n\n".toList ++
      "5. 输出门：决定输出什么。细胞状态经过 tanh 处理后乘以输出门的输出，".toList ++
      "得到当前隐藏状态。\n\n".toList ++
      "6. 优势：LSTM 通过门控机制有效缓解了梯度消失问题，能够建模长距离依赖关系，".toList ++
      "在语音识别、机器翻译、时间序列预测等任务中表现优异。\n\n".toList ++
      "7. 与 Transformer 的区别：LSTM 是串行处理，计算无法并行化；Transformer ".toList ++
      "基于自注意力机制，可以并行计算，但 LSTM 在小数据和长序列建模上仍有优势。".toList
  else if "GRU".toList <+: concept then
    "通用知识解释：GRU（门控循环单元）是 LSTM 的简化版本，".toList ++
      "将遗忘门和输入门合并为更新门，减少了参数量。\n\n".toList ++
      "1. 核心思想：GRU 保留 LSTM 门控机制的核心思想，但简化了结构。".toList ++
      "它只有两个门（重置门和更新门），没有单独的细胞状态，直接使用隐藏状态传递信息。".toList ++
      "\n\n".toList ++
      "2. 重置门：决定在计算候选隐藏状态时忽略多少历史信息。重置门值越小，".toList ++
      "忽略的历史信息越多。\n\n".toList ++
      "3. 更新门：决定从旧隐藏状态保留多少信息，以及从候选隐藏状态接收多少新信息。".toList ++
      "这类似于 LSTM 的遗忘门和输入门的组合。\n\n".toList ++
      "4. 候选隐藏状态：使用重置门控制的历史信息和当前输入计算得出，作为新的候选状态。".toList ++
      "\n\n".toList ++
      "5. 隐藏状态更新：通过更新门在旧隐藏状态和候选隐藏状态之间做加权平均，".toList ++
      "得到新的隐藏状态。\n\n".toList ++
      "6. 优势：相比 LSTM，GRU 参数更少、训练更快，在很多任务上性能接近。".toList ++
      "更新门直接控制信息流动，不需要额外的细胞状态。\n\n".toList ++
      "7. 与 LSTM 的区别：GRU 没有单独的细胞状态，门更少，参数量更小，训练更快；LSTM ".toList ++
      "有更精细的门控机制，在复杂长序列建模上可能更有优势。".toList
  else "通用知识解释：".toList ++ concept ++
    " 是当前系统识别到的技术主题。由于未接入足够专门证据，".toList ++
      "建议结合检索到的论文进一步核验细节。".toList

end K8sLearn.Pilot
